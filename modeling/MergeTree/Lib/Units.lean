import Mathlib

/-!
# Chunks grouped into units

Rows come in chunks, and consecutive chunks are grouped into units. A `Grouping` has the
units that are done and the chunks of the one that is open.

`Replay` runs a machine over units: it starts every unit and then feeds its chunks. The
states in which the units start are those an index of the units has to remember.
-/

/-- The units that are done, and the chunks of the open one. -/
structure Grouping (ρ : Type) where
  done : List (List (List ρ)) := []
  opened : Option (List (List ρ)) := none

namespace Grouping

variable {ρ : Type} (t : Grouping ρ)

/-- All units, the open one as the last. -/
def all : List (List (List ρ)) := t.done ++ t.opened.toList

/-- The rows of a unit. -/
def rowsOf (chunks : List (List ρ)) : ℕ := chunks.flatten.length

/-- The rows of the open unit. -/
def openRows : ℕ := rowsOf (t.opened.getD [])

/-- The next chunk, which may complete its unit. -/
def feed (chunk : List ρ) (isComplete : Bool) : Grouping ρ :=
  if isComplete then ⟨t.done ++ [t.opened.getD [] ++ [chunk]], none⟩ else ⟨t.done, some (t.opened.getD [] ++ [chunk])⟩

/-- The open unit is done as it is. -/
def close : Grouping ρ := ⟨t.all, none⟩

/-- All rows in order. -/
def rows : List ρ := t.all.flatten.flatten

@[simp] theorem all_close : t.close.all = t.all := by simp [close, all]

@[simp] theorem rows_close : t.close.rows = t.rows := by simp [rows]

@[simp] theorem openRows_close : t.close.openRows = 0 := by simp [close, openRows, rowsOf]

theorem all_feed (chunk : List ρ) (isComplete : Bool) :
    (t.feed chunk isComplete).all = t.done ++ [t.opened.getD [] ++ [chunk]] := by
  cases isComplete <;> simp [feed, all]

@[simp] theorem rows_feed (chunk : List ρ) (isComplete : Bool) : (t.feed chunk isComplete).rows = t.rows ++ chunk := by
  unfold rows
  rw [all_feed]
  cases hopened : t.opened <;> simp [all, hopened]

/-- Every unit has rows. -/
def Solid : Prop := ∀ chunks ∈ t.all, chunks.flatten ≠ []

variable {t}

theorem all_of_none (h : t.opened = none) : t.all = t.done := by
  simp [all, h]

theorem all_of_some {chunks : List (List ρ)} (h : t.opened = some chunks) : t.all = t.done ++ [chunks] := by
  simp [all, h]

theorem openRows_of_some {chunks : List (List ρ)} (h : t.opened = some chunks) : t.openRows = rowsOf chunks := by
  simp [openRows, h]

theorem Solid.close (h : t.Solid) : t.close.Solid := by
  intro chunks hmem
  rw [all_close] at hmem
  exact h chunks hmem

theorem Solid.feed (h : t.Solid) {chunk : List ρ} (hchunk : chunk ≠ []) (isComplete : Bool) :
    (t.feed chunk isComplete).Solid := by
  intro chunks hmem
  rw [all_feed, List.mem_append, List.mem_singleton] at hmem
  rcases hmem with hdone | rfl
  · exact h chunks (List.mem_append_left _ hdone)
  · simp [hchunk]

end Grouping

namespace Replay

variable {S C : Type} (start : S → S) (feed : S → C → S)

/-- One unit: it is started, then fed with its chunks. -/
def runUnit (s : S) (chunks : List C) : S := chunks.foldl feed (start s)

/-- All units. -/
def run (s : S) (units : List (List C)) : S := units.foldl (runUnit start feed) s

/-- The states right after the start of every unit. -/
def starts : S → List (List C) → List S
  | _, [] => []
  | s, chunks :: units => start s :: starts (runUnit start feed s chunks) units

@[simp] theorem run_append (s : S) (units : List (List C)) (chunks : List C) :
    run start feed s (units ++ [chunks]) = runUnit start feed (run start feed s units) chunks := by
  simp [run]

@[simp] theorem starts_append (s : S) (units : List (List C)) (chunks : List C) :
    starts start feed s (units ++ [chunks]) = starts start feed s units ++ [start (run start feed s units)] := by
  induction units generalizing s with
  | nil => rfl
  | cons first units ih =>
    simp only [List.cons_append, starts, ih, run, List.foldl_cons]

theorem length_starts (s : S) (units : List (List C)) : (starts start feed s units).length = units.length := by
  induction units generalizing s with
  | nil => rfl
  | cons first units ih => simp only [starts, List.length_cons, ih]

end Replay
