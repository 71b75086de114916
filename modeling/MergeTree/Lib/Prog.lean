import Mathlib

/-!
# Programs over a state that may throw

A `Prog ε σ α` changes a state `σ` and returns a value or throws; what it did to the
state before it threw stays. `wp` is the weakest precondition, with one postcondition
for a value and one for an exception.

* `wp_bind`, `wp_modify`, …: symbolic execution, as a simp set.
* `wp_forM`: a loop over a list, from an invariant of the elements still to come.
* `Leaves`: what a program does not touch.
-/

/-- Programs that throw `ε` and keep the state `σ` they had when they threw. -/
abbrev Prog (ε σ α : Type) := ExceptT ε (StateM σ) α

namespace Prog

variable {ε σ α β τ : Type}

/-- Runs a program: what it returned or threw, and the state it left. -/
def exec (m : Prog ε σ α) (s : σ) : Except ε α × σ := (StateT.run (ExceptT.run m) s).run

/-- Takes over a result. -/
def lift : Except ε α → Prog ε σ α
  | .ok a => pure a
  | .error e => throw e

/-- Runs `f` on the state and keeps the state it leaves, also when it throws. -/
def update (f : σ → σ × Except ε α) : Prog ε σ α := do
  let r := f (← get)
  set r.1
  lift r.2

/-- Runs `m` when `c` holds. -/
def when (c : Prop) [Decidable c] (m : Prog ε σ Unit) : Prog ε σ Unit := if c then m else pure ()

theorem exec_pure (a : α) (s : σ) : (pure a : Prog ε σ α).exec s = (.ok a, s) := rfl

theorem exec_throw (e : ε) (s : σ) : (throw e : Prog ε σ α).exec s = (.error e, s) := rfl

theorem exec_get (s : σ) : (get : Prog ε σ σ).exec s = (.ok s, s) := rfl

theorem exec_set (s t : σ) : (set t : Prog ε σ PUnit).exec s = (.ok ⟨⟩, t) := rfl

theorem exec_modify (f : σ → σ) (s : σ) : (modify f : Prog ε σ PUnit).exec s = (.ok ⟨⟩, f s) := rfl

theorem exec_bind (m : Prog ε σ α) (f : α → Prog ε σ β) (s : σ) :
    (m >>= f).exec s = match m.exec s with
      | (.ok a, t) => (f a).exec t
      | (.error e, t) => (.error e, t) := by
  rcases h : m.exec s with ⟨r, t⟩
  simp only [exec] at h ⊢
  simp only [ExceptT.run_bind, StateT.run_bind, Id.run_bind, h]
  cases r <;> rfl

@[simp] theorem mapError_eq_ok {ε' : Type} {f : ε → ε'} {r : Except ε α} {a : α} :
    r.mapError f = .ok a ↔ r = .ok a := by
  cases r <;> simp [Except.mapError]

/-! ## Weakest preconditions -/

/-- Every outcome of `m` from `s` meets its postcondition: `Q` for a value, `E` for an
exception. -/
def wp (m : Prog ε σ α) (Q : α → σ → Prop) (E : ε → σ → Prop) (s : σ) : Prop :=
  match m.exec s with
  | (.ok a, t) => Q a t
  | (.error e, t) => E e t

variable {Q Q' : α → σ → Prop} {E E' : ε → σ → Prop} {s t : σ}

theorem wp_ok {m : Prog ε σ α} {a : α} (h : m.wp Q E s) (hm : m.exec s = (.ok a, t)) : Q a t := by
  unfold wp at h
  rw [hm] at h
  exact h

theorem wp_error {m : Prog ε σ α} {e : ε} (h : m.wp Q E s) (hm : m.exec s = (.error e, t)) : E e t := by
  unfold wp at h
  rw [hm] at h
  exact h

theorem wp_of_exec {m : Prog ε σ α} (hok : ∀ a t, m.exec s = (.ok a, t) → Q a t)
    (herr : ∀ e t, m.exec s = (.error e, t) → E e t) : m.wp Q E s := by
  unfold wp
  split
  · next a t h => exact hok a t h
  · next e t h => exact herr e t h

theorem wp_mono {m : Prog ε σ α} (h : m.wp Q E s) (hQ : ∀ a t, Q a t → Q' a t)
    (hE : ∀ e t, E e t → E' e t) : m.wp Q' E' s :=
  wp_of_exec (fun a t hm => hQ a t (wp_ok h hm)) fun e t hm => hE e t (wp_error h hm)

theorem exec_snd_of_wp {m : Prog ε σ α} {P : σ → Prop} (h : m.wp (fun _ t => P t) (fun _ t => P t) s) :
    P (m.exec s).2 := by
  rcases hm : m.exec s with ⟨r, t⟩
  cases r with
  | ok a => exact wp_ok h hm
  | error e => exact wp_error h hm

@[simp] theorem wp_pure (a : α) : (pure a : Prog ε σ α).wp Q E s ↔ Q a s := Iff.rfl

@[simp] theorem wp_throw (e : ε) : (throw e : Prog ε σ α).wp Q E s ↔ E e s := Iff.rfl

@[simp] theorem wp_get {Q : σ → σ → Prop} : (get : Prog ε σ σ).wp Q E s ↔ Q s s := Iff.rfl

@[simp] theorem wp_set {Q : PUnit → σ → Prop} : (set t : Prog ε σ PUnit).wp Q E s ↔ Q ⟨⟩ t := Iff.rfl

@[simp] theorem wp_modify {Q : PUnit → σ → Prop} (f : σ → σ) :
    (modify f : Prog ε σ PUnit).wp Q E s ↔ Q ⟨⟩ (f s) := Iff.rfl

@[simp] theorem wp_bind {Q : β → σ → Prop} (m : Prog ε σ α) (f : α → Prog ε σ β) :
    (m >>= f).wp Q E s ↔ m.wp (fun a => (f a).wp Q E) E s := by
  simp only [wp, exec_bind]
  rcases m.exec s with ⟨r, t⟩
  cases r <;> rfl

@[simp] theorem wp_lift (r : Except ε α) :
    (lift r : Prog ε σ α).wp Q E s ↔ (∀ a, r = .ok a → Q a s) ∧ ∀ e, r = .error e → E e s := by
  cases r with
  | ok a => simp [lift]
  | error e => simp [lift]

@[simp] theorem wp_update (f : σ → σ × Except ε α) : (update f : Prog ε σ α).wp Q E s ↔
    (∀ a, (f s).2 = .ok a → Q a (f s).1) ∧ ∀ e, (f s).2 = .error e → E e (f s).1 := by
  simp only [update, wp_bind, wp_get, wp_set, wp_lift]

theorem wp_ite {c : Prop} [Decidable c] {m n : Prog ε σ α} (h1 : c → m.wp Q E s) (h2 : ¬ c → n.wp Q E s) :
    (if c then m else n).wp Q E s := by
  split
  · next h => exact h1 h
  · next h => exact h2 h

theorem wp_when {c : Prop} [Decidable c] {m : Prog ε σ Unit} {Q : Unit → σ → Prop}
    (h1 : c → m.wp Q E s) (h2 : ¬ c → Q () s) : (when c m).wp Q E s := wp_ite h1 h2

/-- **A loop over a list.** `I rest` holds whenever the elements `rest` are still to
come. -/
theorem wp_forM {f : α → Prog ε σ PUnit} (I : List α → σ → Prop) (l : List α)
    (hstep : ∀ x rest t, I (x :: rest) t → (f x).wp (fun _ => I rest) E t) (h : I l s) :
    (l.forM f).wp (fun _ => I []) E s := by
  induction l generalizing s with
  | nil => exact h
  | cons x rest ih =>
    have hx := hstep x rest s h
    rw [List.forM_eq_forM, List.forM_cons, wp_bind]
    exact wp_mono hx (fun _ t ht => ih ht) fun _ _ he => he

/-- A list of results: each element has one, which is related to it by `R`. -/
theorem wp_mapM {f : α → Prog ε σ β} {P : σ → Prop} {R : α → β → Prop} (l : List α)
    (hstep : ∀ a t, P t → (f a).wp (fun b u => P u ∧ R a b) E t) (h : P s) :
    (l.mapM f).wp (fun bs u => P u ∧ ∀ a ∈ l, ∃ b ∈ bs, R a b) E s := by
  induction l generalizing s with
  | nil =>
    rw [List.mapM_nil, wp_pure]
    exact ⟨h, fun a ha => by cases ha⟩
  | cons a l ih =>
    rw [List.mapM_cons, wp_bind]
    refine wp_mono (hstep a s h) ?_ fun _ _ he => he
    intro b t ⟨ht, hb⟩
    rw [wp_bind]
    refine wp_mono (ih ht) ?_ fun _ _ he => he
    intro bs u ⟨hu, hbs⟩
    rw [wp_pure]
    refine ⟨hu, ?_⟩
    intro c hc
    rcases List.mem_cons.1 hc with rfl | hc
    · exact ⟨b, List.mem_cons_self, hb⟩
    · obtain ⟨d, hd, hr⟩ := hbs c hc
      exact ⟨d, List.mem_cons_of_mem b hd, hr⟩

/-! ## What a program leaves alone -/

/-- `m` does not change what `f` reads of the state. -/
def Leaves (f : σ → τ) (m : Prog ε σ α) : Prop := ∀ s, f (m.exec s).2 = f s

namespace Leaves

variable {f : σ → τ}

theorem pure (a : α) : Leaves f (pure a : Prog ε σ α) := fun _ => rfl

theorem throw (e : ε) : Leaves f (throw e : Prog ε σ α) := fun _ => rfl

theorem get : Leaves f (get : Prog ε σ σ) := fun _ => rfl

theorem modify {g : σ → σ} (h : ∀ s, f (g s) = f s) : Leaves f (modify g : Prog ε σ PUnit) := h

theorem bind {m : Prog ε σ α} {g : α → Prog ε σ β} (hm : Leaves f m) (hg : ∀ a, Leaves f (g a)) :
    Leaves f (m >>= g) := by
  intro s
  rw [exec_bind]
  have hs := hm s
  rcases h : m.exec s with ⟨r, t⟩
  rw [h] at hs
  cases r with
  | ok a => exact (hg a t).trans hs
  | error e => exact hs

theorem lift (r : Except ε α) : Leaves f (lift r : Prog ε σ α) := by
  cases r with
  | ok a => exact pure a
  | error e => exact throw e

theorem update {g : σ → σ × Except ε α} (h : ∀ s, f (g s).1 = f s) : Leaves f (update g) := by
  intro s
  unfold Prog.update
  rw [exec_bind, exec_get]
  simp only [exec_bind, exec_set]
  exact (lift (g s).2 (g s).1).trans (h s)

theorem ite {c : Prop} [Decidable c] {m n : Prog ε σ α} (hm : Leaves f m) (hn : Leaves f n) :
    Leaves f (if c then m else n) := by
  split
  · exact hm
  · exact hn

theorem when {c : Prop} [Decidable c] {m : Prog ε σ Unit} (hm : Leaves f m) : Leaves f (when c m) :=
  ite hm (pure _)

theorem forM {g : α → Prog ε σ PUnit} {l : List α} (h : ∀ a ∈ l, Leaves f (g a)) : Leaves f (l.forM g) := by
  induction l with
  | nil => exact pure _
  | cons a l ih =>
    rw [List.forM_eq_forM, List.forM_cons]
    exact bind (h a List.mem_cons_self) fun _ => ih fun b hb => h b (List.mem_cons_of_mem a hb)

/-- After a program that leaves `f` alone, `f` reads what it read before. -/
theorem wp {m : Prog ε σ α} {Q : α → σ → Prop} {E : ε → σ → Prop} {s : σ} (h : Leaves f m)
    (hQ : ∀ a t, f t = f s → Q a t) (hE : ∀ e t, f t = f s → E e t) : m.wp Q E s := by
  have hl := h s
  refine wp_of_exec ?_ ?_
  · intro a t hm
    rw [hm] at hl
    exact hQ a t hl
  · intro e t hm
    rw [hm] at hl
    exact hE e t hl

end Leaves

end Prog
