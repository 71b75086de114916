import Mathlib.Data.Bool.Basic
import Mathlib.Data.Option.Basic

/-!
# Three-valued logic

The connectives of strong Kleene logic on `Option Bool`, where `none` is an unknown truth value,
with De Morgan's laws for two arguments and for a list of them.
-/

namespace Kleene

/-- The negation. -/
def not (a : Option Bool) : Option Bool := a.map Bool.not

/-- The conjunction: one false argument decides it. -/
def and : Option Bool → Option Bool → Option Bool
  | some true, b => b
  | some false, _ => some false
  | none, some false => some false
  | none, _ => none

/-- The disjunction: one true argument decides it. -/
def or : Option Bool → Option Bool → Option Bool
  | some false, b => b
  | some true, _ => some true
  | none, some true => some true
  | none, _ => none

@[simp] theorem not_none : not none = none := rfl

@[simp] theorem not_some (b : Bool) : not (some b) = some !b := rfl

@[simp] theorem not_not (a : Option Bool) : not (not a) = a := by
  cases a with
  | none => rfl
  | some b => simp

theorem not_and (a b : Option Bool) : not (and a b) = or (not a) (not b) := by
  rcases a with _ | _ | _ <;> rcases b with _ | _ | _ <;> rfl

theorem not_or (a b : Option Bool) : not (or a b) = and (not a) (not b) := by
  rcases a with _ | _ | _ <;> rcases b with _ | _ | _ <;> rfl

theorem not_foldl {op dual : Option Bool → Option Bool → Option Bool} (h : ∀ a b, not (op a b) = dual (not a) (not b)) :
    ∀ (l : List (Option Bool)) (a : Option Bool), not (l.foldl op a) = (l.map not).foldl dual (not a) := by
  intro l
  induction l with
  | nil => exact fun _ => rfl
  | cons b l ih =>
    intro a
    rw [List.foldl_cons, List.map_cons, List.foldl_cons, ih, h]

end Kleene
