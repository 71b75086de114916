import Mathlib

/-!
# Bisection

Two bounds approach each other: the middle between them becomes the right bound when the
test holds there, and the left bound when it does not. Nothing is asked of the test: the
bounds that are left are neighbours, and each of them was tested or is the one it started
with. A test that holds from some point on is then decided everywhere but at the ends.
-/

namespace Bisection

/-- The bounds after the search, and the points that were tested. -/
structure Found where
  left : ℕ
  right : ℕ
  tested : List ℕ
deriving DecidableEq, Repr

/-- While there is a point between the bounds, the middle is tested. -/
def search (test : ℕ → Bool) (left right : ℕ) : Found :=
  if left + 1 < right then
    let middle := (left + right) / 2
    let found := if test middle then search test left middle else search test middle right
    { found with tested := middle :: found.tested }
  else ⟨left, right, []⟩
termination_by right - left

/-- **What a search finds.** -/
structure Spec (test : ℕ → Bool) (left right : ℕ) (found : Found) : Prop where
  neighbours : left < right → found.left + 1 = found.right
  left_le : left ≤ found.left
  right_le : found.right ≤ right
  left_test : found.left = left ∨ test found.left = false
  right_test : found.right = right ∨ test found.right = true
  tested : ∀ m ∈ found.tested, left < m ∧ m < right

theorem search_spec (test : ℕ → Bool) (left right : ℕ) : Spec test left right (search test left right) := by
  induction hd : right - left using Nat.strong_induction_on generalizing left right with
  | _ d ih =>
    rw [search]
    by_cases hlt : left + 1 < right
    · have hmiddle : left < (left + right) / 2 ∧ (left + right) / 2 < right := by omega
      obtain ⟨hleft, hright⟩ := hmiddle
      rw [if_pos hlt]
      cases htest : test ((left + right) / 2) with
      | true =>
        simp only [htest, if_true]
        have h := ih _ (by omega) left ((left + right) / 2) rfl
        refine ⟨fun _ => h.neighbours hleft, h.left_le, h.right_le.trans hright.le, h.left_test, Or.inr ?_, fun m hm => ?_⟩
        · rcases h.right_test with heq | htrue
          · exact (congrArg test heq).trans htest
          · exact htrue
        · rcases List.mem_cons.1 hm with rfl | hm
          · exact ⟨hleft, hright⟩
          · exact ⟨(h.tested m hm).1, (h.tested m hm).2.trans hright⟩
      | false =>
        simp only [htest, Bool.false_eq_true, if_false]
        have h := ih _ (by omega) ((left + right) / 2) right rfl
        refine ⟨fun _ => h.neighbours hright, hleft.le.trans h.left_le, h.right_le, Or.inr ?_, h.right_test, fun m hm => ?_⟩
        · rcases h.left_test with heq | hfalse
          · exact (congrArg test heq).trans htest
          · exact hfalse
        · rcases List.mem_cons.1 hm with rfl | hm
          · exact ⟨hleft, hright⟩
          · exact ⟨hleft.trans (h.tested m hm).1, (h.tested m hm).2⟩
    · rw [if_neg hlt]
      exact ⟨fun h => by show left + 1 = right; omega, le_rfl, le_rfl, Or.inl rfl, Or.inl rfl, fun m hm => absurd hm List.not_mem_nil⟩

end Bisection
