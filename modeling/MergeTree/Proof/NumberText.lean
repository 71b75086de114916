import MergeTree.Spec.NumberText
import MergeTree.Proof.PartName

/-!
# Numbers in text formats are read back

`LawfulNumberText`: an integer is written with digits and a sign, and is read back in front of
anything but a digit. Plain decimal text has this property.
-/

namespace MergeTree

open IntText NumberText

/-- **Numbers of each type are read back.** -/
class LawfulNumberText [NumberText] : Prop extends LawfulIntText where
  writeIntText_plain : ∀ (n : ℤ), ∀ c ∈ (writeIntText n).toList, c = '-' ∨ c.isDigit = true
  takes_int : ∀ (τ : IntType) (n : ℤ) (rest : List Char), τ.Holds n → NoDigit rest →
    Takes (readIntText τ) (writeIntText n).toList n rest

theorem IntType.holds_uint64 {n : ℕ} (h : n < 2 ^ 64) : IntType.uint64.Holds n := by
  constructor
  · exact Int.natCast_nonneg n
  · change (n : ℤ) ≤ 2 ^ 64 - 1
    omega

section Decimal

attribute [local instance] NumberText.decimal

theorem digit_ne_minus {n : ℕ} {rest input : List Char} : Nat.toDigits 10 n ++ rest ≠ '-' :: input := by
  intro heq
  cases hd : Nat.toDigits 10 n with
  | nil => exact Nat.toDigits_ne_nil hd
  | cons c cs =>
    rw [hd] at heq
    have hc : c.isDigit = true :=
      Nat.isDigit_of_mem_toDigits (b := 10) (n := n) (by decide) (by decide) (by rw [hd]; exact List.mem_cons_self)
    obtain rfl : c = '-' := (List.cons.inj heq).1
    revert hc
    decide

theorem LawfulNumberText.decimal : LawfulNumberText := by
  refine { LawfulIntText.decimal with writeIntText_plain := ?_, takes_int := ?_ }
  · intro n c hc
    change c ∈ n.repr.toList at hc
    rw [Int.repr_eq_if] at hc
    have hdigit : ∀ m : ℕ, c ∈ Nat.toDigits 10 m → c.isDigit = true := fun m hm =>
      Nat.isDigit_of_mem_toDigits (by decide) (by decide) hm
    split at hc
    · rw [Nat.toList_repr] at hc
      exact Or.inr (hdigit _ hc)
    · rw [String.toList_append, Nat.toList_repr, List.mem_append] at hc
      rcases hc with hc | hc
      · exact Or.inl (by simpa using hc)
      · exact Or.inr (hdigit _ hc)
  intro τ n rest ⟨hlo, hhi⟩ hrest
  change readDecimalInt τ (n.repr.toList ++ rest) = _
  rw [Int.repr_eq_if]
  by_cases hn : 0 ≤ n
  · have hread := readDecimal_toDigits (show n.toNat ≤ τ.max.toNat by omega) hrest
    rw [if_pos hn, Nat.toList_repr]
    unfold readDecimalInt
    split
    · next heq => exact absurd heq digit_ne_minus
    · rw [hread]
      simp only [Int.toNat_of_nonneg hn]
  · have hread := readDecimal_toDigits (show (-n).toNat ≤ (-τ.min).toNat by omega) hrest
    rw [if_neg hn, String.toList_append, Nat.toList_repr]
    change readDecimalInt τ ('-' :: (Nat.toDigits 10 (-n).toNat ++ rest)) = _
    unfold readDecimalInt
    simp only [hread]
    rw [Int.toNat_of_nonneg (by omega), neg_neg]

end Decimal

end MergeTree
