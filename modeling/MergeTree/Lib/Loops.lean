import Mathlib

/-!
# Loops that may throw

A loop is a `List.foldlM` in `Except`. An invariant on the elements still to come and the
state shows that no step throws and that the state after the loop is right.
-/

namespace Loop

variable {S A B ε : Type*}

/-- An invariant that every step keeps holds after a loop whose steps all return. -/
theorem exists_foldlM_pure {M : Type _ → Type _} [Monad M] [LawfulMonad M] {f : S → A → M S} {I : List A → S → Prop}
    (step : ∀ a rest s, I (a :: rest) s → ∃ s', f s a = pure s' ∧ I rest s') :
    ∀ {l : List A} {s : S}, I l s → ∃ s', l.foldlM f s = pure s' ∧ I [] s' := by
  intro l
  induction l with
  | nil => exact fun {s} h => ⟨s, rfl, h⟩
  | cons a rest ih =>
    intro s h
    obtain ⟨s₁, hstep, h₁⟩ := step a rest s h
    obtain ⟨s', hrest, h'⟩ := ih h₁
    refine ⟨s', ?_, h'⟩
    rw [List.foldlM_cons, hstep, pure_bind]
    exact hrest

/-- An invariant that every step keeps without throwing holds after the loop. -/
theorem exists_foldlM {f : S → A → Except ε S} {I : List A → S → Prop}
    (step : ∀ a rest s, I (a :: rest) s → ∃ s', f s a = .ok s' ∧ I rest s') :
    ∀ {l : List A} {s : S}, I l s → ∃ s', l.foldlM f s = .ok s' ∧ I [] s' :=
  exists_foldlM_pure step

theorem exists_foldlM_of_mem {f : S → A → Except ε S} {I : S → Prop} {l : List A}
    (step : ∀ a ∈ l, ∀ s, I s → ∃ s', f s a = .ok s' ∧ I s') {s : S} (h : I s) :
    ∃ s', l.foldlM f s = .ok s' ∧ I s' := by
  obtain ⟨s', hrun, -, h'⟩ := exists_foldlM (f := f) (I := fun rest s => rest ⊆ l ∧ I s)
    (fun a rest s hI => by
      obtain ⟨s₁, hstep, h₁⟩ := step a (hI.1 List.mem_cons_self) s hI.2
      exact ⟨s₁, hstep, List.Subset.trans (List.subset_cons_self a rest) hI.1, h₁⟩) ⟨List.Subset.refl l, h⟩
  exact ⟨s', hrun, h'⟩

theorem mapM_eq_ok {f : A → Except ε B} {g : A → B} : ∀ {l : List A}, (∀ a ∈ l, f a = .ok (g a)) → l.mapM f = .ok (l.map g) := by
  intro l
  induction l with
  | nil => exact fun _ => rfl
  | cons a l ih =>
    intro h
    rw [List.mapM_cons, h a List.mem_cons_self, ih fun b hb => h b (List.mem_cons_of_mem _ hb)]
    rfl

theorem forall₂_of_mapM {f : A → Except ε B} : ∀ {l : List A} {bs : List B}, l.mapM f = .ok bs → List.Forall₂ (fun a b => f a = .ok b) l bs := by
  intro l
  induction l with
  | nil =>
    intro bs h
    obtain rfl : [] = bs := Except.ok.inj h
    exact .nil
  | cons a l ih =>
    intro bs h
    rw [List.mapM_cons] at h
    cases hfirst : f a with
    | error e =>
      rw [hfirst] at h
      cases h
    | ok c =>
      rw [hfirst] at h
      cases hrest : l.mapM f with
      | error e =>
        rw [hrest] at h
        cases h
      | ok cs =>
        rw [hrest] at h
        obtain rfl : c :: cs = bs := Except.ok.inj h
        exact .cons hfirst (ih hrest)

theorem foldlM_flatMap {M : Type _ → Type _} [Monad M] [LawfulMonad M] {S : Type _} (f : S → B → M S) (g : A → List B)
    (l : List A) (s : S) : l.foldlM (fun s a => (g a).foldlM f s) s = (l.flatMap g).foldlM f s := by
  induction l generalizing s with
  | nil => rfl
  | cons a l ih =>
    rw [List.foldlM_cons, List.flatMap_cons, List.foldlM_append]
    exact bind_congr fun s' => ih s'

end Loop
