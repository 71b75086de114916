import Mathlib

/-!
# Postfix programs

A postfix program is a list of tokens over a stack of values: an operand is pushed, an
operator takes its arguments from the top of the stack and pushes its result. An algebra
says what the operands and the operators are. Whether a program leaves exactly one value
does not depend on the algebra (`exists_eval`), and two algebras whose operators preserve a
relation leave related values (`Related.eval`). The value on top of the stack was left by the
subexpression that ends there (`exists_subexpression`).
-/

namespace Postfix

variable {A U B X Y : Type*}

/-- A token: an operand, an operator with one argument or an operator with two. -/
inductive Token (A U B : Type*)
  | operand (a : A)
  | unary (u : U)
  | binary (b : B)

variable {p : List (Token A U B)} {t : Token A U B}

/-- The values of the operands and of the operators. -/
structure Algebra (A U B X : Type*) where
  operand : A → X
  unary : U → X → X
  binary : B → X → X → X

namespace Algebra

variable (alg : Algebra A U B X)

/-- One token, over the stack with its top first. -/
def step : List X → Token A U B → Option (List X)
  | s, .operand a => some (alg.operand a :: s)
  | x :: s, .unary u => some (alg.unary u x :: s)
  | x :: y :: s, .binary b => some (alg.binary b x y :: s)
  | _, _ => none

/-- All tokens of a program. -/
def run (p : List (Token A U B)) (s : List X) : Option (List X) := p.foldlM alg.step s

/-- The value of a program: the only value it leaves on an empty stack. -/
def eval (p : List (Token A U B)) : Option X :=
  match alg.run p [] with
  | some [x] => some x
  | _ => none

@[simp] theorem run_nil (s : List X) : alg.run [] s = some s := rfl

theorem run_cons (t : Token A U B) (p : List (Token A U B)) (s : List X) :
    alg.run (t :: p) s = alg.step s t >>= alg.run p := rfl

theorem run_append (p q : List (Token A U B)) (s : List X) : alg.run (p ++ q) s = alg.run p s >>= alg.run q := by
  unfold run
  exact List.foldlM_append

theorem run_singleton (t : Token A U B) (s : List X) : alg.run [t] s = alg.step s t := by
  rw [run_cons]
  cases alg.step s t <;> rfl

theorem eval_eq_some {x : X} : alg.eval p = some x ↔ alg.run p [] = some [x] := by
  unfold eval
  split <;> simp_all

variable {alg}

theorem step_frame {s s' : List X} (h : alg.step s t = some s') (u : List X) :
    alg.step (s ++ u) t = some (s' ++ u) := by
  cases t with
  | operand a =>
    obtain rfl := Option.some.inj h
    rfl
  | unary f =>
    match s, h with
    | x :: s, h =>
      obtain rfl := Option.some.inj h
      rfl
  | binary b =>
    match s, h with
    | x :: y :: s, h =>
      obtain rfl := Option.some.inj h
      rfl

theorem exists_cons_of_step {s s' : List X} (h : alg.step s t = some s') : ∃ x rest, s' = x :: rest := by
  cases t with
  | operand a => exact ⟨_, _, (Option.some.inj h).symm⟩
  | unary f =>
    match s, h with
    | x :: s, h => exact ⟨_, _, (Option.some.inj h).symm⟩
  | binary b =>
    match s, h with
    | x :: y :: s, h => exact ⟨_, _, (Option.some.inj h).symm⟩

theorem run_frame :
    ∀ {s s' : List X}, alg.run p s = some s' → ∀ u, alg.run p (s ++ u) = some (s' ++ u) := by
  induction p with
  | nil =>
    intro s s' h u
    obtain rfl := Option.some.inj h
    rfl
  | cons t p ih =>
    intro s s' h u
    rw [run_cons] at h ⊢
    obtain ⟨s₁, hstep, hrest⟩ := Option.bind_eq_some_iff.1 h
    rw [step_frame hstep u]
    exact ih hrest u

/-- **The subexpression that ends where a program ends**: it left the value on top, and what is before it left the
rest. -/
theorem exists_subexpression {x : X} {rest : List X} (h : alg.run p [] = some (x :: rest)) :
    ∃ p₁ p₂, p = p₁ ++ p₂ ∧ alg.run p₁ [] = some rest ∧ alg.run p₂ [] = some [x] := by
  induction hlength : p.length using Nat.strong_induction_on generalizing p x rest with
  | h n ih =>
    rcases List.eq_nil_or_concat' p with rfl | ⟨q, t, rfl⟩
    · cases h
    rw [run_append] at h
    obtain ⟨s, hq, ht⟩ := Option.bind_eq_some_iff.1 h
    rw [run_singleton] at ht
    have hlt : q.length < n := by
      rw [← hlength, List.length_append, List.length_singleton]
      exact Nat.lt_succ_self _
    cases t with
    | operand a =>
      obtain ⟨rfl, rfl⟩ := List.cons.inj (Option.some.inj ht)
      exact ⟨q, [.operand a], rfl, hq, rfl⟩
    | unary u =>
      match s, ht with
      | y :: s, ht =>
        obtain ⟨rfl, rfl⟩ := List.cons.inj (Option.some.inj ht)
        obtain ⟨p₁, p₂, rfl, hp₁, hp₂⟩ := ih q.length hlt hq rfl
        refine ⟨p₁, p₂ ++ [.unary u], List.append_assoc _ _ _, hp₁, ?_⟩
        rw [run_append, hp₂]
        rfl
    | binary b =>
      match s, ht with
      | y :: z :: s, ht =>
        obtain ⟨rfl, rfl⟩ := List.cons.inj (Option.some.inj ht)
        obtain ⟨q₁, q₂, rfl, hq₁, hq₂⟩ := ih q.length hlt hq rfl
        obtain ⟨p₁, p₂, rfl, hp₁, hp₂⟩ := ih q₁.length (lt_of_le_of_lt (by simp) hlt) hq₁ rfl
        refine ⟨p₁, p₂ ++ (q₂ ++ [.binary b]), by simp only [List.append_assoc], hp₁, ?_⟩
        rw [run_append, hp₂, Option.bind_eq_bind, Option.bind_some, run_append, show [z] = [] ++ [z] from rfl, run_frame hq₂ [z]]
        rfl

end Algebra

/-- The algebra of one value: what remains is the height of the stack. -/
def heights : Algebra A U B Unit := ⟨fun _ => (), fun _ _ => (), fun _ _ _ => ()⟩

/-- The program takes no argument from an empty stack and leaves one value. -/
def WellFormed (p : List (Token A U B)) : Prop := (heights.eval p).isSome

instance (p : List (Token A U B)) : Decidable (WellFormed p) := inferInstanceAs (Decidable (_ = true))

/-- The operands of `p` and all operators of two algebras are related. -/
structure Related (R : X → Y → Prop) (alg : Algebra A U B X) (alg' : Algebra A U B Y) (p : List (Token A U B)) : Prop where
  operand : ∀ a, Token.operand a ∈ p → R (alg.operand a) (alg'.operand a)
  unary : ∀ u x y, R x y → R (alg.unary u x) (alg'.unary u y)
  binary : ∀ b x x' y y', R x y → R x' y' → R (alg.binary b x x') (alg'.binary b y y')

namespace Related

variable {R : X → Y → Prop} {alg : Algebra A U B X} {alg' : Algebra A U B Y}

theorem tail (h : Related R alg alg' (t :: p)) : Related R alg alg' p :=
  ⟨fun a ha => h.operand a (List.mem_cons_of_mem _ ha), h.unary, h.binary⟩

theorem step (h : Related R alg alg' (t :: p)) {s s' : List X} {r : List Y}
    (hs : List.Forall₂ R s r) (hstep : alg.step s t = some s') :
    ∃ r', alg'.step r t = some r' ∧ List.Forall₂ R s' r' := by
  cases t with
  | operand a =>
    obtain rfl := Option.some.inj hstep
    exact ⟨_, rfl, .cons (h.operand a List.mem_cons_self) hs⟩
  | unary u =>
    cases hs with
    | nil => cases hstep
    | cons hx hs =>
      obtain rfl := Option.some.inj hstep
      exact ⟨_, rfl, .cons (h.unary u _ _ hx) hs⟩
  | binary b =>
    cases hs with
    | nil => cases hstep
    | cons hx hs =>
      cases hs with
      | nil => cases hstep
      | cons hy hs =>
        obtain rfl := Option.some.inj hstep
        exact ⟨_, rfl, .cons (h.binary b _ _ _ _ hx hy) hs⟩

theorem run (h : Related R alg alg' p) :
    ∀ {s s' : List X} {r : List Y}, List.Forall₂ R s r → alg.run p s = some s' →
      ∃ r', alg'.run p r = some r' ∧ List.Forall₂ R s' r' := by
  induction p with
  | nil =>
    intro s s' r hs hrun
    obtain rfl := Option.some.inj hrun
    exact ⟨r, rfl, hs⟩
  | cons t p ih =>
    intro s s' r hs hrun
    rw [Algebra.run_cons] at hrun
    obtain ⟨s₁, hstep, hrest⟩ := Option.bind_eq_some_iff.1 hrun
    obtain ⟨r₁, hstep', hs₁⟩ := h.step hs hstep
    obtain ⟨r', hrun', hs'⟩ := ih h.tail hs₁ hrest
    exact ⟨r', by rw [Algebra.run_cons, hstep']; exact hrun', hs'⟩

theorem eval (h : Related R alg alg' p) {x : X} (hx : alg.eval p = some x) :
    ∃ y, alg'.eval p = some y ∧ R x y := by
  obtain ⟨r, hrun, hr⟩ := h.run .nil (alg.eval_eq_some.1 hx)
  cases hr with
  | cons hxy hnil =>
    cases hnil
    exact ⟨_, alg'.eval_eq_some.2 hrun, hxy⟩

end Related

theorem WellFormed.exists_eval (h : WellFormed p) (alg : Algebra A U B X) :
    ∃ x, alg.eval p = some x := by
  obtain ⟨u, hu⟩ := Option.isSome_iff_exists.1 h
  have hrelated : Related (fun _ _ => True) heights alg p :=
    ⟨fun _ _ => trivial, fun _ _ _ _ => trivial, fun _ _ _ _ _ _ _ => trivial⟩
  obtain ⟨x, hx, -⟩ := hrelated.eval hu
  exact ⟨x, hx⟩

end Postfix
