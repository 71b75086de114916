import Mathlib

/-!
# The last writer wins

A cell has a value and a version; a write replaces it if its version is greater. Writes
compose (`write_assoc`), so any number of them leaves the greatest one (`writeAll_spec`),
whatever the order, if writes with the same version agree (`writeAll_perm`).
-/

namespace LastWriter

variable {V T : Type*}

/-- A value and its version. A write is a cell too. -/
structure Cell (V T : Type*) where
  value : V
  version : T
deriving DecidableEq, Repr

variable [LinearOrder T]

/-- A write takes place if its version is greater. -/
def write (c w : Cell V T) : Cell V T := if c.version < w.version then w else c

/-- Writes one after another. -/
def writeAll (c : Cell V T) (ws : List (Cell V T)) : Cell V T := ws.foldl write c

/-- Writes with the same version are the same. -/
def Agree (ws : List (Cell V T)) : Prop := ∀ w ∈ ws, ∀ w' ∈ ws, w.version = w'.version → w = w'

variable {c w w' : Cell V T} {ws ws' : List (Cell V T)}

@[simp] theorem writeAll_nil : writeAll c [] = c := rfl

theorem writeAll_cons : writeAll c (w :: ws) = writeAll (write c w) ws := rfl

theorem writeAll_append : writeAll c (ws ++ ws') = writeAll (writeAll c ws) ws' := List.foldl_append

theorem le_version_write : c.version ≤ (write c w).version := by
  unfold write
  split
  · rename_i h
    exact h.le
  · exact le_rfl

theorem le_version_write_right : w.version ≤ (write c w).version := by
  unfold write
  split
  · exact le_rfl
  · rename_i h
    exact not_lt.1 h

/-- Two writes are one write of the greater of them, the first one if they are equal. -/
theorem write_assoc : write (write c w) w' = write c (write w w') := by
  unfold write
  by_cases h : c.version < w.version <;> by_cases h' : w.version < w'.version
  · simp only [h, h', if_true, h.trans h']
  · simp only [h, h', if_true, if_false]
  · simp only [h, h', if_true, if_false]
  · have hnot : ¬ c.version < w'.version := not_lt.2 ((not_lt.1 h').trans (not_lt.1 h))
    simp only [h, h', hnot, if_false]

theorem write_comm (h : w.version = w'.version → w = w') : write (write c w) w' = write (write c w') w := by
  rw [write_assoc, write_assoc]
  congr 1
  unfold write
  rcases lt_trichotomy w.version w'.version with hlt | heq | hgt
  · rw [if_pos hlt, if_neg hlt.not_gt]
  · rw [h heq]
  · rw [if_neg hgt.not_gt, if_pos hgt]

theorem writeAll_perm (hagree : Agree ws) (hperm : ws.Perm ws') : writeAll c ws = writeAll c ws' :=
  hperm.foldl_eq' (fun w hw w' hw' _ => write_comm (hagree w hw w' hw')) c

/-- The greatest write is left, if it is greater than the cell; else the cell is unchanged. -/
theorem writeAll_spec (c : Cell V T) (ws : List (Cell V T)) : (writeAll c ws = c ∧ ∀ w ∈ ws, w.version ≤ c.version) ∨
    (writeAll c ws ∈ ws ∧ c.version < (writeAll c ws).version ∧ ∀ w ∈ ws, w.version ≤ (writeAll c ws).version) := by
  induction ws generalizing c with
  | nil => exact Or.inl ⟨rfl, nofun⟩
  | cons w ws ih =>
    rw [writeAll_cons]
    rcases ih (write c w) with ⟨heq, hle⟩ | ⟨hmem, hlt, hle⟩
    · rw [heq]
      by_cases h : c.version < w.version
      · right
        have hwrite : write c w = w := if_pos h
        rw [hwrite] at hle ⊢
        refine ⟨List.mem_cons_self, h, fun w' hw' => ?_⟩
        rcases List.mem_cons.1 hw' with rfl | hw'
        · exact le_rfl
        · exact hle w' hw'
      · left
        have hwrite : write c w = c := if_neg h
        rw [hwrite] at hle ⊢
        refine ⟨rfl, fun w' hw' => ?_⟩
        rcases List.mem_cons.1 hw' with rfl | hw'
        · exact not_lt.1 h
        · exact hle w' hw'
    · right
      refine ⟨List.mem_cons_of_mem _ hmem, lt_of_le_of_lt le_version_write hlt, fun w' hw' => ?_⟩
      rcases List.mem_cons.1 hw' with rfl | hw'
      · exact le_version_write_right.trans hlt.le
      · exact hle w' hw'

/-- The same cell with another value. -/
def Cell.map {V' : Type*} (f : V → V') (c : Cell V T) : Cell V' T := ⟨f c.value, c.version⟩

omit [LinearOrder T] in
theorem Cell.map_injective {V' : Type*} {f : V → V'} (hf : Function.Injective f) :
    Function.Injective (Cell.map f : Cell V T → Cell V' T) := by
  rintro ⟨value, version⟩ ⟨value', version'⟩ h
  obtain ⟨hvalue, hversion⟩ : f value = f value' ∧ version = version' := by simpa [Cell.map] using h
  rw [hf hvalue, hversion]

omit [LinearOrder T] in
theorem Agree.map {V' : Type*} (f : V → V') (h : Agree ws) : Agree (ws.map (Cell.map f)) := by
  intro w hw w' hw' heq
  obtain ⟨v, hv, rfl⟩ := List.mem_map.1 hw
  obtain ⟨v', hv', rfl⟩ := List.mem_map.1 hw'
  rw [h v hv v' hv' heq]

theorem writeAll_map {V' : Type*} (f : V → V') : writeAll (c.map f) (ws.map (Cell.map f)) = (writeAll c ws).map f := by
  induction ws generalizing c with
  | nil => rfl
  | cons w ws ih =>
    have hwrite : write (c.map f) (w.map f) = (write c w).map f := by
      unfold write
      exact (apply_ite (Cell.map f) _ _ _).symm
    rw [List.map_cons, writeAll_cons, writeAll_cons, hwrite, ih]

end LastWriter
