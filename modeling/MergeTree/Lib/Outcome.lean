import Mathlib

/-!
# Outcomes of a computation that may throw

`Yields P E r`: a result of `r` satisfies `P`, and an exception of `r` satisfies `E`. With
`E` that nothing satisfies this is total correctness (`Yields.exists_ok`).
-/

universe u v

namespace Outcome

variable {ε : Type u} {A B S : Type v} {P P' : A → Prop} {Q : B → Prop} {E E' : ε → Prop} {r : Except ε A}

/-- The result satisfies `P`, or the exception satisfies `E`. -/
def Yields (P : A → Prop) (E : ε → Prop) : Except ε A → Prop
  | .ok a => P a
  | .error e => E e

@[simp] theorem yields_ok {a : A} : Yields P E (.ok a) ↔ P a := Iff.rfl

@[simp] theorem yields_error {e : ε} : Yields P E (.error e) ↔ E e := Iff.rfl

@[simp] theorem yields_pure {a : A} : Yields P E (pure a) ↔ P a := Iff.rfl

theorem Yields.mono (h : Yields P E r) (hP : ∀ a, P a → P' a) (hE : ∀ e, E e → E' e) : Yields P' E' r := by
  cases r with
  | ok a => exact hP a h
  | error e => exact hE e h

theorem Yields.bind {f : A → Except ε B} (h : Yields P E r) (hf : ∀ a, P a → Yields Q E (f a)) : Yields Q E (r >>= f) := by
  cases r with
  | ok a => exact hf a h
  | error e => exact h

/-- A loop over a list, from an invariant of the elements that are done. -/
theorem yields_foldlM {f : S → A → Except ε S} {I : List A → S → Prop} {l : List A} {s : S} (h : I [] s)
    (step : ∀ done a s, done ++ [a] <+: l → I done s → Yields (I (done ++ [a])) E (f s a)) :
    Yields (I l) E (l.foldlM f s) := by
  have hrun : ∀ todo done s, done ++ todo = l → I done s → Yields (I l) E (todo.foldlM f s) := by
    intro todo
    induction todo with
    | nil =>
      intro done s hl hI
      rw [List.append_nil] at hl
      rw [← hl]
      exact hI
    | cons a todo ih =>
      intro done s hl hI
      have hl' : (done ++ [a]) ++ todo = l := by rw [List.append_assoc, List.singleton_append, hl]
      rw [List.foldlM_cons]
      exact Yields.bind (step done a s ⟨todo, hl'⟩ hI) fun s' hs' => ih (done ++ [a]) s' hl' hs'
  exact hrun l [] s (List.nil_append l) h

theorem Yields.exists_ok (h : Yields P E r) (hE : ∀ e, ¬E e) : ∃ a, r = .ok a ∧ P a := by
  cases r with
  | ok a => exact ⟨a, rfl, h⟩
  | error e => exact absurd h (hE e)

end Outcome
