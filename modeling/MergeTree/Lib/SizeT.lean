import Mathlib

/-!
# Arithmetic of `size_t`

Sums, differences and products of 64-bit unsigned numbers wrap around. A difference that
wraps around is still the right one modulo `2 ^ 64` (`mulSize_subSize`, `addSize_subSize`).
-/

/-- The sum of two `size_t`. -/
def addSize (a b : ℕ) : ℕ := (a + b) % 2 ^ 64

/-- The difference of two `size_t`. -/
def subSize (a b : ℕ) : ℕ := ((a - b : ℤ) % 2 ^ 64).toNat

/-- The product of two `size_t`. -/
def mulSize (a b : ℕ) : ℕ := (a * b) % 2 ^ 64

theorem subSize_of_le {a b : ℕ} (h : b ≤ a) (ha : a < 2 ^ 64) : subSize a b = a - b := by
  unfold subSize
  omega

theorem addSize_of_lt {a b : ℕ} (h : a + b < 2 ^ 64) : addSize a b = a + b := Nat.mod_eq_of_lt h

theorem mulSize_of_lt {a b : ℕ} (h : a * b < 2 ^ 64) : mulSize a b = a * b := Nat.mod_eq_of_lt h

theorem natCast_subSize (a b : ℕ) : (subSize a b : ℤ) = ((a : ℤ) - b) % 2 ^ 64 :=
  Int.toNat_of_nonneg (Int.emod_nonneg _ (by norm_num))

theorem mulSize_subSize (g a b : ℕ) : mulSize g (subSize a b) = subSize (g * a) (g * b) := by
  have hcast : ((mulSize g (subSize a b) : ℕ) : ℤ) = (subSize (g * a) (g * b) : ℕ) := by
    have hmul : ((mulSize g (subSize a b) : ℕ) : ℤ) = (g * (subSize a b : ℕ) : ℤ) % 2 ^ 64 := by
      unfold mulSize
      push_cast
      rfl
    rw [hmul, natCast_subSize, natCast_subSize, Int.mul_emod, Int.emod_emod, ← Int.mul_emod, mul_sub]
    push_cast
    rfl
  exact_mod_cast hcast

theorem addSize_subSize (l a b : ℕ) : addSize l (subSize a b) = subSize (l + a) b := by
  unfold addSize subSize
  omega
