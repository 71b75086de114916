import Mathlib

/-!
# Grouping rows by a key

A table has a key for every row. `distinct` lists the keys in the order of their first
occurrence and `positions` the rows of one key.

* `flatten_positions_perm`: every row is among the rows of exactly one key.
* `pairwise_positions`: the groups are ordered by their first rows.
* `gather_positions`: the cells of a group, read along a column.
-/

namespace RowGroups

variable {K α : Type*} [DecidableEq K]

/-- A key that is not there yet is added. -/
def addKey (ks : List K) (k : K) : List K := if k ∈ ks then ks else ks ++ [k]

/-- The keys in the order of their first occurrence. -/
def distinct (keys : List K) : List K := keys.foldl addKey []

/-- The rows with the key `k`. -/
def positions (keys : List K) (k : K) : List ℕ := (List.range keys.length).filter fun i => keys[i]? = some k

omit [DecidableEq K] in
/-- The cells of a column at some rows. -/
def gather (column : List α) (rows : List ℕ) : List α := rows.filterMap fun i => column[i]?

variable {keys : List K} {k : K}

theorem distinct_append_singleton (keys : List K) (k : K) : distinct (keys ++ [k]) = addKey (distinct keys) k := by
  rw [distinct, List.foldl_append]
  rfl

theorem mem_distinct : k ∈ distinct keys ↔ k ∈ keys := by
  induction keys using List.reverseRecOn with
  | nil => exact Iff.rfl
  | append_singleton keys k' ih =>
    rw [distinct_append_singleton, addKey, List.mem_append, List.mem_singleton]
    split
    · next hmem =>
      rw [ih]
      constructor
      · exact Or.inl
      · rintro (h | rfl)
        · exact h
        · exact ih.1 hmem
    · rw [List.mem_append, List.mem_singleton, ih]

theorem distinct_append_of_mem (h : k ∈ keys) : distinct (keys ++ [k]) = distinct keys := by
  rw [distinct_append_singleton, addKey, if_pos (mem_distinct.2 h)]

theorem distinct_append_of_not_mem (h : k ∉ keys) : distinct (keys ++ [k]) = distinct keys ++ [k] := by
  rw [distinct_append_singleton, addKey, if_neg (mt mem_distinct.1 h)]

theorem nodup_distinct (keys : List K) : (distinct keys).Nodup := by
  induction keys using List.reverseRecOn with
  | nil => exact List.nodup_nil
  | append_singleton keys k ih =>
    by_cases hmem : k ∈ keys
    · rw [distinct_append_of_mem hmem]
      exact ih
    · rw [distinct_append_of_not_mem hmem]
      rw [← List.concat_eq_append]
      exact List.Nodup.concat (mt mem_distinct.1 hmem) ih

theorem distinct_prefix (keys more : List K) : distinct keys <+: distinct (keys ++ more) := by
  induction more using List.reverseRecOn with
  | nil => rw [List.append_nil]
  | append_singleton more k ih =>
    rw [← List.append_assoc, distinct_append_singleton, addKey]
    split
    · exact ih
    · exact ih.trans (List.prefix_append _ _)

theorem length_distinct (keys : List K) : (distinct keys).length = keys.dedup.length := by
  have hperm : (distinct keys).Perm keys.dedup := by
    rw [List.perm_ext_iff_of_nodup (nodup_distinct keys) (List.nodup_dedup keys)]
    intro k
    rw [mem_distinct, List.mem_dedup]
  exact hperm.length_eq

theorem mem_positions {i : ℕ} : i ∈ positions keys k ↔ keys[i]? = some k := by
  rw [positions, List.mem_filter, List.mem_range, decide_eq_true_iff]
  constructor
  · exact And.right
  · intro h
    exact ⟨(List.getElem?_eq_some_iff.1 h).1, h⟩

theorem pairwise_lt_positions (keys : List K) (k : K) : (positions keys k).Pairwise (· < ·) :=
  List.pairwise_lt_range.filter _

theorem positions_ne_nil (h : k ∈ keys) : positions keys k ≠ [] := by
  obtain ⟨i, hi⟩ := List.mem_iff_getElem?.1 h
  exact List.ne_nil_of_mem (mem_positions.2 hi)

/-- **Every row is among the rows of exactly one key.** -/
theorem flatten_positions_perm (keys : List K) :
    ((distinct keys).map (positions keys)).flatten.Perm (List.range keys.length) := by
  have hnodup : ((distinct keys).map (positions keys)).flatten.Nodup := by
    rw [List.nodup_flatten]
    constructor
    · intro rows hrows
      obtain ⟨k, -, rfl⟩ := List.mem_map.1 hrows
      exact (pairwise_lt_positions keys k).imp fun h => Nat.ne_of_lt h
    · refine List.pairwise_map.2 ((nodup_distinct keys).imp ?_)
      intro k k' hne i hi hi'
      rw [mem_positions] at hi hi'
      exact hne (Option.some.inj (hi.symm.trans hi'))
  rw [List.perm_ext_iff_of_nodup hnodup List.nodup_range]
  intro i
  rw [List.mem_flatten, List.mem_range]
  constructor
  · rintro ⟨rows, hrows, hi⟩
    obtain ⟨k, -, rfl⟩ := List.mem_map.1 hrows
    exact (List.getElem?_eq_some_iff.1 (mem_positions.1 hi)).1
  · intro hi
    have hkey : keys[i]? = some keys[i] := List.getElem?_eq_getElem hi
    exact ⟨positions keys keys[i], List.mem_map.2 ⟨_, mem_distinct.2 (List.getElem_mem hi), rfl⟩, mem_positions.2 hkey⟩

/-- **The groups are ordered by their first rows.** -/
theorem pairwise_positions (keys : List K) :
    ((distinct keys).map (positions keys)).Pairwise fun rows rows' => ∀ j ∈ rows', ∃ i ∈ rows, i < j := by
  rw [List.pairwise_map]
  -- stated for a beginning of the rows, where a new key has no earlier row
  have hbeginning : ∀ pre rest : List K, (distinct pre).Pairwise fun k k' =>
      ∀ j ∈ positions (pre ++ rest) k', ∃ i ∈ positions (pre ++ rest) k, i < j := by
    intro pre
    induction pre using List.reverseRecOn with
    | nil => exact fun rest => List.Pairwise.nil
    | append_singleton pre k ih =>
      intro rest
      rw [List.append_assoc]
      by_cases hmem : k ∈ pre
      · rw [distinct_append_of_mem hmem]
        exact ih _
      · rw [distinct_append_of_not_mem hmem, List.pairwise_append]
        refine ⟨ih _, List.pairwise_singleton _ _, ?_⟩
        intro k₀ hk₀ k' hk' j hj
        obtain rfl := List.mem_singleton.1 hk'
        rw [mem_positions] at hj
        have hlate : pre.length ≤ j := by
          by_contra hlt
          rw [List.getElem?_append_left (Nat.lt_of_not_le hlt)] at hj
          exact hmem (List.mem_of_getElem? hj)
        obtain ⟨i, hi⟩ := List.mem_iff_getElem?.1 (mem_distinct.1 hk₀)
        have hlt : i < pre.length := (List.getElem?_eq_some_iff.1 hi).1
        refine ⟨i, ?_, Nat.lt_of_lt_of_le hlt hlate⟩
        rw [mem_positions, List.getElem?_append_left hlt]
        exact hi
  have hall := hbeginning keys []
  rw [List.append_nil] at hall
  exact hall

theorem positions_append_singleton (keys : List K) (k k' : K) :
    positions (keys ++ [k']) k = positions keys k ++ if k' = k then [keys.length] else [] := by
  have hbefore : (List.range keys.length).filter (fun i => (keys ++ [k'])[i]? = some k) = positions keys k := by
    refine List.filter_congr fun i hi => ?_
    rw [List.getElem?_append_left (List.mem_range.1 hi)]
  rw [positions, List.length_append, List.length_singleton, List.range_succ, List.filter_append, hbefore]
  congr 1
  by_cases hk : k' = k <;> simp [hk]

/-- **The cells of a group**, read along a column. -/
theorem gather_positions {column : List α} (h : column.length = keys.length) (k : K) :
    gather column (positions keys k) = ((column.zip keys).filter fun cell => cell.2 = k).map Prod.fst := by
  induction keys using List.reverseRecOn generalizing column with
  | nil =>
    obtain rfl := List.length_eq_zero_iff.1 h
    rfl
  | append_singleton keys k' ih =>
    rcases List.eq_nil_or_concat column with rfl | ⟨column, x, rfl⟩
    · simp at h
    · rw [List.concat_eq_append] at h ⊢
      have hlength : column.length = keys.length := by simpa using h
      have hbefore : gather (column ++ [x]) (positions keys k) = gather column (positions keys k) := by
        refine List.filterMap_congr fun i hi => ?_
        have hi' := (List.getElem?_eq_some_iff.1 (mem_positions.1 hi)).1
        rw [List.getElem?_append_left (by omega)]
      have happend : ∀ rows rows', gather (column ++ [x]) (rows ++ rows') =
          gather (column ++ [x]) rows ++ gather (column ++ [x]) rows' := fun rows rows' => List.filterMap_append
      rw [positions_append_singleton, happend, hbefore, ih hlength, List.zip_append hlength, List.filter_append,
        List.map_append]
      congr 1
      by_cases hk : k' = k
      · simp [gather, hk, ← hlength]
      · simp [gather, hk]

end RowGroups
