import Mathlib

/-!
# Lists by position

* `le_getLastD`: the last element of an ascending list is the greatest.
* `findIdx_eq_of`: the first element with a property, by what stands before it.
* `getElem?_flatten_append`: an element of a list that is cut into chunks of one length.
* `exists_of_mem_drop_min_findIdx`: an element behind a position, or behind the first element with a property.
* `extract_append_extract`, `extract_succ`: slices that are put together.
* `take_flatMap_take`: the first elements of lists that are cut.
* `neighbour_unique`: in a duplicate-free list an element has one successor.
-/

theorem getLastD_eq_getD (l : List ℕ) : l.getLastD 0 = l.getD (l.length - 1) 0 := by
  rcases List.eq_nil_or_concat l with hnil | ⟨l', x, hx⟩
  · simp [hnil]
  · simp [hx]

theorem le_getLastD {l : List ℕ} (h : l.Pairwise (· < ·)) {x : ℕ} (hx : x ∈ l) : x ≤ l.getLastD 0 := by
  induction l using List.reverseRecOn with
  | nil => cases hx
  | append_singleton l y _ =>
    rw [List.getLastD_concat]
    rcases List.mem_append.1 hx with hx | hx
    · exact ((List.pairwise_append.1 h).2.2 x hx y (by simp)).le
    · rw [List.mem_singleton.1 hx]

theorem findIdx_eq_of {l : List ℕ} {p : ℕ → Bool} {k : ℕ} (hk : k ≤ l.length)
    (hbefore : ∀ j < k, p (l.getD j 0) = false) (hat : k < l.length → p (l.getD k 0) = true) : l.findIdx p = k := by
  rcases Nat.lt_or_ge k l.length with hlt | hge
  · rw [List.findIdx_eq hlt]
    refine ⟨by rw [← List.getD_eq_getElem _ 0 hlt]; exact hat hlt, ?_⟩
    intro j hj
    rw [← List.getD_eq_getElem _ 0 (by omega)]
    simpa using hbefore j hj
  · have hk' : k = l.length := by omega
    rw [hk', List.findIdx_eq_length]
    intro x hx
    obtain ⟨j, hj, rfl⟩ := List.getElem_of_mem hx
    rw [← List.getD_eq_getElem _ 0 hj]
    simpa using hbefore j (by omega)

theorem exists_of_mem_drop_min_findIdx {α : Type*} {p : α → Bool} {l : List α} {n : ℕ} {a : α}
    (h : a ∈ l.drop (min n (l.findIdx p))) :
    ∃ i, ∃ hi : i < l.length, l[i] = a ∧ (n ≤ i ∨ ∃ k, ∃ hk : k < l.length, k ≤ i ∧ p l[k] = true) := by
  obtain ⟨j, hj, rfl⟩ := List.mem_drop_iff_getElem.1 h
  refine ⟨min n (l.findIdx p) + j, by omega, rfl, ?_⟩
  rcases le_total n (l.findIdx p) with hle | hle
  · exact Or.inl (by omega)
  · have hlt : l.findIdx p < l.length := by omega
    exact Or.inr ⟨l.findIdx p, hlt, by omega, List.findIdx_getElem⟩

/-- **Chunks of one length**, and a last one that is not longer. -/
theorem getElem?_flatten_append {α : Type*} {chunks : List (List α)} {last : List α} {n : ℕ} (hn : 0 < n)
    (hchunks : ∀ c ∈ chunks, c.length = n) (hlast : last.length ≤ n) (i : ℕ) :
    (chunks.flatten ++ last)[i]? = (chunks ++ [last])[i / n]?.bind fun chunk => chunk[i % n]? := by
  induction chunks generalizing i with
  | nil =>
    by_cases hlt : i < n
    · simp [Nat.div_eq_of_lt hlt, Nat.mod_eq_of_lt hlt]
    · have hdiv : i / n ≠ 0 := by
        rw [Nat.div_ne_zero_iff]
        omega
      have hout : last[i]? = none := List.getElem?_eq_none (by omega)
      obtain ⟨k, hk⟩ := Nat.exists_eq_succ_of_ne_zero hdiv
      simp [hk, hout]
  | cons c chunks ih =>
    have hc : c.length = n := hchunks c List.mem_cons_self
    rw [List.flatten_cons, List.append_assoc, List.getElem?_append, hc]
    by_cases hlt : i < n
    · rw [if_pos hlt, Nat.div_eq_of_lt hlt, Nat.mod_eq_of_lt hlt]
      simp
    · obtain ⟨k, rfl⟩ : ∃ k, i = k + n := ⟨i - n, by omega⟩
      rw [if_neg hlt, Nat.add_sub_cancel, ih (fun e he => hchunks e (List.mem_cons_of_mem _ he)) k,
        Nat.add_div_right k hn, Nat.add_mod_right]
      simp

/-- The last element of a list and the first one of what follows it are neighbours. -/
theorem pair_isInfix_append {α : Type*} {a b : α} {l l' : List α} (ha : a ∈ l.getLast?) (hb : b ∈ l'.head?) :
    [a, b] <:+: l ++ l' := by
  obtain ⟨before, rfl⟩ := List.getLast?_eq_some_iff.1 ha
  obtain ⟨after, rfl⟩ : ∃ after, l' = b :: after := by
    cases l' with
    | nil => cases hb
    | cons c after => exact ⟨after, by rw [Option.some.inj hb]⟩
  exact ⟨before, after, by simp⟩

/-- **An element has one successor** in a duplicate-free list. -/
theorem neighbour_unique {α : Type*} {a b c : α} : ∀ {l : List α}, l.Nodup → [a, b] <:+: l → [a, c] <:+: l → b = c := by
  intro l
  induction l with
  | nil => exact fun _ h _ => absurd h (by simp)
  | cons x l ih =>
    intro hnodup hb hc
    obtain ⟨hx, hnodup⟩ := List.nodup_cons.1 hnodup
    have hmem : ∀ d, [a, d] <:+: l → a ∈ l := fun d hd => hd.subset List.mem_cons_self
    rw [List.infix_cons_iff] at hb hc
    rcases hb with hb | hb
    · obtain ⟨rfl, hfirst⟩ := List.cons_prefix_cons.1 hb
      rcases hc with hc | hc
      · obtain ⟨-, hsecond⟩ := List.cons_prefix_cons.1 hc
        have hsame := (List.prefix_of_prefix_length_le hfirst hsecond le_rfl).eq_of_length rfl
        exact (List.cons.inj hsame).1
      · exact absurd (hmem c hc) hx
    · rcases hc with hc | hc
      · obtain ⟨rfl, -⟩ := List.cons_prefix_cons.1 hc
        exact absurd (hmem b hb) hx
      · exact ih hnodup hb hc

theorem extract_append_extract {α : Type*} (l : List α) {a b c : ℕ} (hab : a ≤ b) (hbc : b ≤ c) :
    l.extract a b ++ l.extract b c = l.extract a c := by
  have hc : c - a = (b - a) + (c - b) := by omega
  rw [List.extract_eq_take_drop, List.extract_eq_take_drop, List.extract_eq_take_drop, hc, List.take_add, List.drop_drop,
    Nat.add_sub_cancel' hab]

theorem extract_one {α : Type*} {l : List α} {n : ℕ} {x : α} (h : l[n]? = some x) : l.extract n (n + 1) = [x] := by
  obtain ⟨hlt, rfl⟩ := List.getElem?_eq_some_iff.1 h
  rw [List.extract_eq_take_drop, Nat.add_sub_cancel_left, List.drop_eq_getElem_cons hlt]
  rfl

theorem extract_succ {α : Type*} {l : List α} {a n : ℕ} {x : α} (h : l[n]? = some x) (ha : a ≤ n) :
    l.extract a (n + 1) = l.extract a n ++ [x] := by
  rw [← extract_append_extract l ha (Nat.le_succ n), extract_one h]

theorem getElem?_of_drop {α : Type*} {l rest : List α} {n : ℕ} {x : α} (h : l.drop n = x :: rest) : l[n]? = some x := by
  rw [← List.head?_drop, h]
  rfl

theorem append_inj_of_forall {α : Type*} {p : α → Bool} {a b c d : List α} (ha : ∀ x ∈ a, p x = true) (hb : ∀ x ∈ b, p x = true)
    (hc : ∀ x ∈ c, ¬p x = true) (hd : ∀ x ∈ d, ¬p x = true) (h : a ++ c = b ++ d) : a = b ∧ c = d := by
  have hab := congrArg (List.filter p) h
  rw [List.filter_append, List.filter_append, List.filter_eq_self.2 ha, List.filter_eq_self.2 hb, List.filter_eq_nil_iff.2 hc,
    List.filter_eq_nil_iff.2 hd, List.append_nil, List.append_nil] at hab
  subst hab
  exact ⟨rfl, List.append_cancel_left h⟩

theorem take_append_eq_iff_of_forall {α : Type*} {p : α → Bool} {a b c d : List α} (ha : ∀ x ∈ a, p x = true) (hb : ∀ x ∈ b, p x = true)
    (hc : ∀ x ∈ c, ¬p x = true) (hd : ∀ x ∈ d, ¬p x = true) (k : ℕ) :
    (a ++ c).take k = (b ++ d).take k ↔ a.take k = b.take k ∧ c.take (k - b.length) = d.take (k - b.length) := by
  have hlength : a.take k = b.take k → k - a.length = k - b.length := by
    intro h
    have hlength := congrArg List.length h
    rw [List.length_take, List.length_take] at hlength
    omega
  rw [List.take_append, List.take_append]
  constructor
  · intro h
    obtain ⟨hab, hcd⟩ := append_inj_of_forall (fun x hx => ha x (List.mem_of_mem_take hx)) (fun x hx => hb x (List.mem_of_mem_take hx))
      (fun x hx => hc x (List.mem_of_mem_take hx)) (fun x hx => hd x (List.mem_of_mem_take hx)) h
    exact ⟨hab, hlength hab ▸ hcd⟩
  · rintro ⟨hab, hcd⟩
    rw [hab, hlength hab, hcd]

theorem take_flatMap_take {α β : Type*} (f : α → List β) {n : ℕ} : ∀ (l : List α) {m : ℕ}, m ≤ n →
    (l.flatMap fun a => (f a).take n).take m = (l.flatMap f).take m := by
  intro l
  induction l with
  | nil => exact fun _ => rfl
  | cons a l ih =>
    intro m hm
    rw [List.flatMap_cons, List.flatMap_cons, List.take_append, List.take_append, List.take_take, min_eq_left hm, List.length_take]
    rcases le_total (f a).length n with hle | hle
    · rw [min_eq_right hle, ih ((Nat.sub_le _ _).trans hm)]
    · rw [min_eq_left hle, Nat.sub_eq_zero_of_le hm, Nat.sub_eq_zero_of_le (hm.trans hle), List.take_zero, List.take_zero]
