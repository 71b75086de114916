import Mathlib.Order.Lattice
import Mathlib.Data.Int.Order.Basic
import Mathlib.Tactic

/-!
# Grouped intervals

A `Span` is a closed integer interval inside one group of a linearly ordered
family. Spans are compared first by group, then by lower end (`Le`). Two spans of
different groups never meet.

* `left_of`: among disjoint spans, whatever lies before a span that is not past
  `c` is disjoint from `c`.
* `right_of`: once a span past `c` misses `c`, everything after it does too.

Together they say that the spans meeting a given one stand next to each other in
a sorted family of disjoint spans.
-/

/-- A closed interval of block numbers in a group. -/
structure Span (γ : Type*) where
  grp : γ
  lo : ℤ
  hi : ℤ

namespace Span

variable {γ : Type*} {a b c : Span γ}

/-- No common point. -/
def Disjoint (a b : Span γ) : Prop := a.grp ≠ b.grp ∨ b.hi < a.lo ∨ a.hi < b.lo

/-- The interval has a point. -/
def Nonempty (a : Span γ) : Prop := a.lo ≤ a.hi

theorem Disjoint.symm (h : a.Disjoint b) : b.Disjoint a := by
  rcases h with h | h | h
  · exact Or.inl (Ne.symm h)
  · exact Or.inr (Or.inr h)
  · exact Or.inr (Or.inl h)

variable [LinearOrder γ]

/-- `a` starts no later than `b`, groups first. -/
def Le (a b : Span γ) : Prop := a.grp < b.grp ∨ (a.grp = b.grp ∧ a.lo ≤ b.lo)

theorem Le.grp_eq (hab : a.Le b) (hbc : b.Le c) (h : a.grp = c.grp) : a.grp = b.grp := by
  rcases hab with hab | ⟨hab, -⟩
  · rcases hbc with hbc | ⟨hbc, -⟩
    · exact absurd (hab.trans hbc) (by rw [h]; exact lt_irrefl _)
    · rw [h, hbc]
  · exact hab

theorem Le.hi_lt_lo (hab : a.Le b) (hd : a.Disjoint b) (hg : a.grp = b.grp) (hb : b.Nonempty) :
    a.hi < b.lo := by
  unfold Nonempty at hb
  rcases hd with hd | hd | hd
  · exact absurd hg hd
  · rcases hab with hab | ⟨-, hlo⟩
    · exact absurd hab (by rw [hg]; exact lt_irrefl _)
    · omega
  · exact hd

/-- **Before a span that is not past `c`**, everything disjoint from it misses `c`. -/
theorem left_of (hab : a.Le b) (hbc : b.Le c) (hd : a.Disjoint b) (hb : b.Nonempty) :
    a.Disjoint c := by
  by_cases hg : a.grp = c.grp
  · have hgb := hab.grp_eq hbc hg
    have hlt := hab.hi_lt_lo hd hgb hb
    rcases hbc with hbc | ⟨-, hlo⟩
    · exact absurd hbc (by rw [← hgb, hg]; exact lt_irrefl _)
    · exact Or.inr (Or.inr (by omega))
  · exact Or.inl hg

/-- **After a span past `c` that misses `c`**, everything misses `c`. -/
theorem right_of (hca : c.Le a) (hab : a.Le b) (hd : a.Disjoint c) (ha : a.Nonempty) :
    b.Disjoint c := by
  by_cases hg : c.grp = b.grp
  · have hga := hca.grp_eq hab hg
    have hlt := hca.hi_lt_lo hd.symm hga ha
    rcases hab with hab | ⟨-, hlo⟩
    · exact absurd hab (by rw [← hga, hg]; exact lt_irrefl _)
    · exact Or.inr (Or.inl (by omega))
  · exact Or.inl (Ne.symm hg)

end Span
