import Mathlib

/-!
# Counted keys

A map from keys to counters, where a key that is not counted is not there. Adding a list of
keys and taking it away again are inverse as long as the keys that are taken away were
counted (`Represents.increment`, `Represents.exists_decrement`).
-/

namespace CountedMap

/-- Counters of keys. -/
abbrev Counters (K : Type) : Type := AList fun _ : K => ℕ

variable {K : Type} [DecidableEq K]

/-- The counter of every key of the list goes up. -/
def increment (m : Counters K) (keys : List K) : Counters K :=
  keys.foldl (fun m k => m.insert k ((m.lookup k).getD 0 + 1)) m

/-- The counter of a key goes down, and the key is taken away with the last one. -/
def decrementKey {ε : Type} (missing : K → ε) (m : Counters K) (k : K) : Except ε (Counters K) :=
  match m.lookup k with
  | none => .error (missing k)
  | some n => .ok (if n - 1 = 0 then m.erase k else m.insert k (n - 1))

/-- The counter of every key of the list goes down. -/
def decrement {ε : Type} (missing : K → ε) (m : Counters K) (keys : List K) : Except ε (Counters K) :=
  keys.foldlM (decrementKey missing) m

/-- **The counters are these numbers**: a key is there if its number is positive. -/
def Represents (m : Counters K) (f : K → ℕ) : Prop := ∀ k, m.lookup k = if f k = 0 then none else some (f k)

variable {m : Counters K} {f : K → ℕ}

theorem represents_empty : Represents (∅ : Counters K) fun _ => 0 := fun k => by simp

theorem Represents.congr {f' : K → ℕ} (h : Represents m f) (heq : ∀ k, f k = f' k) : Represents m f' := fun k => by
  rw [h k, heq k]

theorem Represents.mem_keys (h : Represents m f) (k : K) : k ∈ m.keys ↔ 0 < f k := by
  rw [← AList.mem_keys, ← AList.lookup_isSome, h k]
  split
  · rename_i h0
    simp [h0]
  · simp
    omega

theorem Represents.increment (h : Represents m f) (keys : List K) :
    Represents (increment m keys) fun k => f k + keys.count k := by
  induction keys generalizing m f with
  | nil => exact h.congr fun k => rfl
  | cons first keys ih =>
    have hfirst : Represents (m.insert first ((m.lookup first).getD 0 + 1)) (Function.update f first (f first + 1)) := by
      intro k
      by_cases hk : k = first
      · subst hk
        rw [AList.lookup_insert, h k, Function.update_self, if_neg (Nat.succ_ne_zero _)]
        by_cases h0 : f k = 0 <;> simp [h0]
      · rw [AList.lookup_insert_ne hk, Function.update_of_ne hk, h k]
    refine (ih hfirst).congr fun k => ?_
    by_cases hk : k = first
    · subst hk
      rw [Function.update_self, List.count_cons_self]
      omega
    · rw [Function.update_of_ne hk, List.count_cons_of_ne (Ne.symm hk)]

theorem Represents.exists_decrement {ε : Type} (missing : K → ε) {keys : List K} (h : Represents m f)
    (hkeys : ∀ k, keys.count k ≤ f k) :
    ∃ m', decrement missing m keys = .ok m' ∧ Represents m' fun k => f k - keys.count k := by
  induction keys generalizing m f with
  | nil => exact ⟨m, rfl, h.congr fun k => rfl⟩
  | cons first keys ih =>
    have hpos : 0 < f first := by
      have hle := hkeys first
      rw [List.count_cons_self] at hle
      omega
    have hlookup : m.lookup first = some (f first) := by rw [h first, if_neg (Nat.ne_of_gt hpos)]
    have hfirst : Represents (if f first - 1 = 0 then m.erase first else m.insert first (f first - 1))
        (Function.update f first (f first - 1)) := by
      intro k
      by_cases hk : k = first
      · subst hk
        rw [Function.update_self]
        by_cases h0 : f k - 1 = 0
        · rw [if_pos h0, if_pos h0, AList.lookup_erase]
        · rw [if_neg h0, if_neg h0, AList.lookup_insert]
      · rw [Function.update_of_ne hk, ← h k]
        by_cases h0 : f first - 1 = 0
        · rw [if_pos h0, AList.lookup_erase_ne hk]
        · rw [if_neg h0, AList.lookup_insert_ne hk]
    obtain ⟨m', hrun, h'⟩ := ih hfirst fun k => by
      have hle := hkeys k
      by_cases hk : k = first
      · subst hk
        rw [List.count_cons_self] at hle
        rw [Function.update_self]
        omega
      · rw [List.count_cons_of_ne (Ne.symm hk)] at hle
        rwa [Function.update_of_ne hk]
    refine ⟨m', ?_, h'.congr fun k => ?_⟩
    · have hstep : decrementKey missing m first =
          .ok (if f first - 1 = 0 then m.erase first else m.insert first (f first - 1)) := by
        unfold decrementKey
        rw [hlookup]
      unfold decrement at hrun ⊢
      rw [List.foldlM_cons, hstep]
      exact hrun
    · by_cases hk : k = first
      · subst hk
        rw [Function.update_self, List.count_cons_self]
        omega
      · rw [Function.update_of_ne hk, List.count_cons_of_ne (Ne.symm hk)]

end CountedMap
