import Mathlib

/-!
# The best elements of a list

The elements of a list with the smallest keys: `n` of them, with any choice among equal keys
(`IsBest`), or at least so many and all that tie with them (`IsBestWithTies`), which are exactly
those with fewer than `n` better ones (`IsBestWithTies.perm_filter`). The best of a
concatenation are the best of the best of its parts. When the elements stand for groups of
rows, and the key of each is attained in its group, the groups of the best elements have a
choice of the best rows (`IsBest.exists_rows`).
-/

namespace MergeTree

variable {A R κ : Type} [LinearOrder κ] {key : A → κ} {n : ℕ} {xs ys : List A}

/-- `ys` are a choice of `n` best elements of `xs`, or all if there are fewer. -/
def IsBest (key : A → κ) (n : ℕ) (xs ys : List A) : Prop :=
  ∃ rest, xs.Perm (ys ++ rest) ∧ ys.length = min n xs.length ∧ ∀ y ∈ ys, ∀ z ∈ rest, key y ≤ key z

/-- `ys` are at least `n` elements of `xs`, or all, and better than all others. -/
def HoldsBest (key : A → κ) (n : ℕ) (xs ys : List A) : Prop :=
  ∃ rest, xs.Perm (ys ++ rest) ∧ (n ≤ ys.length ∨ rest = []) ∧ ∀ y ∈ ys, ∀ z ∈ rest, key y < key z

/-- `ys` are at least `n` best elements of `xs`, or all, with all that tie with them, and no more than needed: there
are fewer than `n` better ones than any of them. -/
def IsBestWithTies (key : A → κ) (n : ℕ) (xs ys : List A) : Prop :=
  HoldsBest key n xs ys ∧ ∀ y ∈ ys, ys.countP (fun x => decide (key x < key y)) < n

theorem IsBest.subset (h : IsBest key n xs ys) : ys ⊆ xs := by
  obtain ⟨rest, hperm, -, -⟩ := h
  exact fun y hy => hperm.mem_iff.2 (List.mem_append_left _ hy)

theorem IsBest.perm {xs' : List A} (h : IsBest key n xs ys) (hperm : xs'.Perm xs) : IsBest key n xs' ys := by
  obtain ⟨rest, hrest, hlength, hle⟩ := h
  exact ⟨rest, hperm.trans hrest, by rw [hlength, hperm.length_eq], hle⟩

theorem IsBest.perm_right {ys' : List A} (h : IsBest key n xs ys) (hperm : ys'.Perm ys) : IsBest key n xs ys' := by
  obtain ⟨rest, hrest, hlength, hle⟩ := h
  exact ⟨rest, hrest.trans (hperm.symm.append_right rest), hperm.length_eq.trans hlength,
    fun y hy => hle y (hperm.mem_iff.1 hy)⟩

theorem IsBest.map {B : Type} (key : A → κ) (f : B → A) {xs ys : List B} (h : IsBest (key ∘ f) n xs ys) :
    IsBest key n (xs.map f) (ys.map f) := by
  obtain ⟨rest, hperm, hlength, hle⟩ := h
  refine ⟨rest.map f, ?_, ?_, fun y hy z hz => ?_⟩
  · rw [← List.map_append]
    exact hperm.map f
  · rw [List.length_map, List.length_map, hlength]
  · obtain ⟨y, hyb, rfl⟩ := List.mem_map.1 hy
    obtain ⟨z, hzb, rfl⟩ := List.mem_map.1 hz
    exact hle y hyb z hzb

theorem HoldsBest.map {B : Type} (key : A → κ) (f : B → A) {xs ys : List B} (h : HoldsBest (key ∘ f) n xs ys) :
    HoldsBest key n (xs.map f) (ys.map f) := by
  obtain ⟨rest, hperm, henough, hlt⟩ := h
  refine ⟨rest.map f, ?_, ?_, fun y hy z hz => ?_⟩
  · rw [← List.map_append]
    exact hperm.map f
  · rw [List.length_map, List.map_eq_nil_iff]
    exact henough
  · obtain ⟨y, hyb, rfl⟩ := List.mem_map.1 hy
    obtain ⟨z, hzb, rfl⟩ := List.mem_map.1 hz
    exact hlt y hyb z hzb

theorem IsBestWithTies.map {B : Type} (key : A → κ) (f : B → A) {xs ys : List B} (h : IsBestWithTies (key ∘ f) n xs ys) :
    IsBestWithTies key n (xs.map f) (ys.map f) := by
  refine ⟨h.1.map key f, fun y hy => ?_⟩
  obtain ⟨y, hyb, rfl⟩ := List.mem_map.1 hy
  rw [List.countP_map]
  exact h.2 y hyb

theorem isBest_self (h : xs.length ≤ n) : IsBest key n xs xs :=
  ⟨[], by rw [List.append_nil], (min_eq_right h).symm, fun _ _ _ hz => by cases hz⟩

theorem IsBest.perm_of_length_le (h : IsBest key n xs ys) (hlength : xs.length ≤ n) : ys.Perm xs := by
  obtain ⟨rest, hperm, hsize, -⟩ := h
  have hcount := hperm.length_eq
  rw [List.length_append, hsize, min_eq_right hlength] at hcount
  obtain rfl : rest = [] := List.length_eq_zero_iff.1 (by omega)
  rw [List.append_nil] at hperm
  exact hperm.symm

/-- **The best with ties are those with fewer than `n` better ones.** -/
theorem IsBestWithTies.perm_filter (h : IsBestWithTies key n xs ys) :
    ys.Perm (xs.filter fun x => decide (xs.countP (fun y => decide (key y < key x)) < n)) := by
  obtain ⟨⟨rest, hperm, henough, hlt⟩, hminimal⟩ := h
  have hcount : ∀ x, xs.countP (fun y => decide (key y < key x)) =
      ys.countP (fun y => decide (key y < key x)) + rest.countP (fun y => decide (key y < key x)) := fun x => by
    rw [hperm.countP_eq, List.countP_append]
  have hys : ys.filter (fun x => decide (xs.countP (fun y => decide (key y < key x)) < n)) = ys := by
    refine List.filter_eq_self.2 fun y hy => decide_eq_true ?_
    have hnone : rest.countP (fun z => decide (key z < key y)) = 0 :=
      List.countP_eq_zero.2 fun z hz => by
        rw [decide_eq_false (lt_asymm (hlt y hy z hz))]
        decide
    rw [hcount, hnone]
    exact hminimal y hy
  have hrest : rest.filter (fun x => decide (xs.countP (fun y => decide (key y < key x)) < n)) = [] := by
    refine List.filter_eq_nil_iff.2 fun z hz => ?_
    have hall : ys.countP (fun y => decide (key y < key z)) = ys.length :=
      List.countP_eq_length.2 fun y hy => decide_eq_true (hlt y hy z hz)
    have hlength := henough.resolve_right (List.ne_nil_of_mem hz)
    rw [hcount, hall, decide_eq_true_iff]
    omega
  have hfilter := hperm.filter fun x => decide (xs.countP (fun y => decide (key y < key x)) < n)
  rw [List.filter_append, hys, hrest, List.append_nil] at hfilter
  exact hfilter.symm

theorem IsBest.of_sorted {sorted : List A} (hperm : sorted.Perm xs) (hsorted : sorted.Pairwise fun a b => key a ≤ key b) :
    IsBest key n xs (sorted.take n) := by
  refine ⟨sorted.drop n, ?_, ?_, ?_⟩
  · rw [List.take_append_drop]
    exact hperm.symm
  · rw [List.length_take, hperm.length_eq]
  · have happend := List.take_append_drop n sorted ▸ hsorted
    exact (List.pairwise_append.1 happend).2.2

theorem exists_isBest (key : A → κ) (n : ℕ) (xs : List A) : ∃ ys, IsBest key n xs ys := by
  have htotal : Std.Total fun a b : A => key a ≤ key b := ⟨fun a b => le_total (key a) (key b)⟩
  have htrans : IsTrans A fun a b => key a ≤ key b := ⟨fun _ _ _ hab hbc => le_trans hab hbc⟩
  exact ⟨_, IsBest.of_sorted (List.perm_insertionSort (fun a b => key a ≤ key b) xs) (List.pairwise_insertionSort _ xs)⟩

/-! ## Parts -/

omit [LinearOrder κ] in
/-- Elements that are not counted among the rest are counted among those selected. -/
theorem countP_le_of_perm {p : A → Bool} {part others rest : List A} (hperm : (part ++ others).Perm (ys ++ rest))
    (hpart : ∀ x ∈ part, p x = true) (hrest : ∀ z ∈ rest, p z = false) : part.length ≤ ys.countP p := by
  have hcount := hperm.countP_eq p
  have hall : part.countP p = part.length := List.countP_eq_length.2 hpart
  have hnone : rest.countP p = 0 := List.countP_eq_zero.2 fun z hz => by rw [hrest z hz]; decide
  rw [List.countP_append, List.countP_append] at hcount
  omega

omit [LinearOrder κ] in
theorem perm_of_part {part best others left rest : List A} (hleft : part.Perm (best ++ left))
    (hrest : (best ++ others).Perm (ys ++ rest)) : (part ++ others).Perm (ys ++ (rest ++ left)) :=
  calc (part ++ others).Perm (best ++ left ++ others) := hleft.append_right others
    _ = best ++ (left ++ others) := List.append_assoc _ _ _
    List.Perm _ (best ++ (others ++ left)) := List.perm_append_comm.append_left best
    _ = best ++ others ++ left := (List.append_assoc _ _ _).symm
    List.Perm _ (ys ++ rest ++ left) := hrest.append_right left
    _ = ys ++ (rest ++ left) := List.append_assoc _ _ _

theorem IsBest.of_part {part best others : List A} (hpart : IsBest key n part best) (h : IsBest key n (best ++ others) ys) :
    IsBest key n (part ++ others) ys := by
  obtain ⟨left, hleft, hbestLength, hbest⟩ := hpart
  obtain ⟨rest, hrest, hlength, hle⟩ := h
  have hsizes : part.length = best.length + left.length := by rw [hleft.length_eq, List.length_append]
  refine ⟨rest ++ left, perm_of_part hleft hrest, ?_, fun y hy z hz => ?_⟩
  · rw [List.length_append] at hlength ⊢
    omega
  · rcases List.mem_append.1 hz with hz | hz
    · exact hle y hy z hz
    · -- otherwise the whole of the best, which are `n`, are better than `y`
      by_contra hlt
      rw [not_le] at hlt
      have hcount : best.length ≤ ys.countP fun x => decide (key x < key y) :=
        countP_le_of_perm hrest (fun x hx => decide_eq_true (lt_of_le_of_lt (hbest x hx z hz) hlt))
          fun x hx => decide_eq_false (not_lt.2 (hle y hy x hx))
      have hless : (ys.countP fun x => decide (key x < key y)) < ys.length :=
        List.countP_lt_length_iff.2 ⟨y, hy, decide_eq_false (lt_irrefl _)⟩
      have hpos : 0 < left.length := List.length_pos_of_mem hz
      rw [List.length_append] at hlength
      omega

theorem IsBestWithTies.of_part {part best others : List A} (hpart : HoldsBest key n part best)
    (h : IsBestWithTies key n (best ++ others) ys) : IsBestWithTies key n (part ++ others) ys := by
  obtain ⟨left, hleft, henough, hbest⟩ := hpart
  obtain ⟨⟨rest, hrest, hlength, hlt⟩, hminimal⟩ := h
  refine ⟨⟨rest ++ left, perm_of_part hleft hrest, ?_, fun y hy z hz => ?_⟩, hminimal⟩
  · rcases henough with henough | rfl
    · refine Or.inl ?_
      have hsizes := hrest.length_eq
      rw [List.length_append, List.length_append] at hsizes
      rcases hlength with hlength | rfl
      · exact hlength
      · rw [List.length_nil] at hsizes
        omega
    · exact hlength.imp id fun hnil => by rw [hnil, List.append_nil]
  · rcases List.mem_append.1 hz with hz | hz
    · exact hlt y hy z hz
    · by_contra hle
      rw [not_lt] at hle
      have hcount : best.length ≤ ys.countP fun x => decide (key x < key y) :=
        countP_le_of_perm hrest (fun x hx => decide_eq_true (lt_of_lt_of_le (hbest x hx z hz) hle))
          fun x hx => decide_eq_false (lt_asymm (hlt y hy x hx))
      have hfew := hminimal y hy
      rcases henough with henough | rfl
      · omega
      · cases hz

/-- What is kept when a part is replaced, in any order of the elements, is kept when all parts are. -/
theorem flatten_of_parts {P : List A → Prop} {Q : List A → List A → Prop} (hperm : ∀ {xs xs'}, P xs → xs'.Perm xs → P xs')
    (hpart : ∀ {part best others}, Q part best → P (best ++ others) → P (part ++ others)) {parts results : List (List A)}
    (hparts : List.Forall₂ Q parts results) (h : P results.flatten) : P parts.flatten := by
  have hall : ∀ others, P (results.flatten ++ others) → P (parts.flatten ++ others) := by
    clear h
    induction hparts with
    | nil => exact fun _ h => h
    | @cons part best parts results hfirst _ ih =>
      intro others h
      rw [List.flatten_cons, List.append_assoc] at h ⊢
      have h := ih (best ++ others) (hperm h (List.perm_append_comm_assoc _ _ _))
      exact hpart hfirst (hperm h (List.perm_append_comm_assoc _ _ _))
  have h := hall [] (by rwa [List.append_nil])
  rwa [List.append_nil] at h

/-- **The best of the best** of every part are the best of all. -/
theorem IsBest.flatten {parts results : List (List A)} (hparts : List.Forall₂ (IsBest key n) parts results)
    (h : IsBest key n results.flatten ys) : IsBest key n parts.flatten ys :=
  flatten_of_parts IsBest.perm IsBest.of_part hparts h

theorem IsBestWithTies.perm {xs' : List A} (h : IsBestWithTies key n xs ys) (hperm : xs'.Perm xs) :
    IsBestWithTies key n xs' ys := by
  obtain ⟨⟨rest, hrest, hproperties⟩, hminimal⟩ := h
  exact ⟨⟨rest, hperm.trans hrest, hproperties⟩, hminimal⟩

theorem IsBestWithTies.flatten {parts results : List (List A)} (hparts : List.Forall₂ (HoldsBest key n) parts results)
    (h : IsBestWithTies key n results.flatten ys) : IsBestWithTies key n parts.flatten ys :=
  flatten_of_parts IsBestWithTies.perm IsBestWithTies.of_part hparts h

theorem holdsBest_self (key : A → κ) (n : ℕ) (xs : List A) : HoldsBest key n xs xs :=
  ⟨[], by rw [List.append_nil], Or.inr rfl, fun _ _ _ hz => by cases hz⟩

/-! ## Groups of rows -/

section Groups

variable {rowKey : R → κ} {rows : A → List R}

omit [LinearOrder κ] in
theorem length_le_countP_flatMap {p : R → Bool} (h : ∀ y ∈ ys, ∃ r ∈ rows y, p r = true) :
    ys.length ≤ (ys.flatMap rows).countP p := by
  induction ys with
  | nil => exact Nat.zero_le _
  | cons y ys ih =>
    have hfirst : 0 < (rows y).countP p := List.countP_pos_iff.2 (h y List.mem_cons_self)
    have hrest := ih fun z hz => h z (List.mem_cons_of_mem _ hz)
    rw [List.flatMap_cons, List.countP_append, List.length_cons]
    omega

/-- **The groups of the best elements have a choice of the best rows**, if the key of every group is the smallest of
its rows. -/
theorem IsBest.exists_rows (h : IsBest key n xs ys)
    (hgroup : ∀ x ∈ xs, (∃ r ∈ rows x, rowKey r = key x) ∧ ∀ r ∈ rows x, key x ≤ rowKey r) :
    ∃ best, IsBest rowKey n (xs.flatMap rows) best ∧ best ⊆ ys.flatMap rows := by
  obtain ⟨rest, hperm, hlength, hle⟩ := h
  have hmem : ∀ y ∈ ys, y ∈ xs := fun y hy => hperm.mem_iff.2 (List.mem_append_left _ hy)
  have hmemRest : ∀ z ∈ rest, z ∈ xs := fun z hz => hperm.mem_iff.2 (List.mem_append_right _ hz)
  obtain ⟨best, others, hbest, hbestLength, hbestLe⟩ := exists_isBest rowKey n (ys.flatMap rows)
  have hsizes : xs.length = ys.length + rest.length := by rw [hperm.length_eq, List.length_append]
  have hrows : (xs.flatMap rows).Perm (best ++ (others ++ rest.flatMap rows)) := by
    rw [← List.append_assoc]
    exact ((hperm.flatMap_right rows).trans (List.Perm.of_eq List.flatMap_append)).trans (hbest.append_right _)
  have hmany : ys.length ≤ (ys.flatMap rows).length := by
    refine (length_le_countP_flatMap (p := fun _ => true) fun y hy => ?_).trans List.countP_le_length
    obtain ⟨r, hr, -⟩ := (hgroup y (hmem y hy)).1
    exact ⟨r, hr, rfl⟩
  refine ⟨best, ⟨others ++ rest.flatMap rows, hrows, ?_, fun r hr z hz => ?_⟩,
    fun r hr => hbest.mem_iff.2 (List.mem_append_left _ hr)⟩
  · rcases List.eq_nil_or_concat' rest with rfl | ⟨front, last, rfl⟩
    · rw [hbestLength, hbest.length_eq, hrows.length_eq, List.flatMap_nil, List.append_nil]
    · have hall := hrows.length_eq
      rw [List.length_append] at hall
      rw [List.length_append, List.length_singleton] at hsizes
      omega
  · rcases List.mem_append.1 hz with hz | hz
    · exact hbestLe r hr z hz
    · obtain ⟨w, hw, hzw⟩ := List.mem_flatMap.1 hz
      by_contra hlt
      rw [not_le] at hlt
      -- otherwise every group has a row better than `r`
      have hcount : ys.length ≤ (ys.flatMap rows).countP fun x => decide (rowKey x < rowKey r) := by
        refine length_le_countP_flatMap fun y hy => ?_
        obtain ⟨x, hx, hkey⟩ := (hgroup y (hmem y hy)).1
        refine ⟨x, hx, decide_eq_true (lt_of_le_of_lt ?_ hlt)⟩
        rw [hkey]
        exact (hle y hy w hw).trans ((hgroup w (hmemRest w hw)).2 z hzw)
      have hnone : (others.countP fun x => decide (rowKey x < rowKey r)) = 0 :=
        List.countP_eq_zero.2 fun x hx => by rw [decide_eq_false (not_lt.2 (hbestLe r hr x hx))]; decide
      have hless : (best.countP fun x => decide (rowKey x < rowKey r)) < best.length :=
        List.countP_lt_length_iff.2 ⟨r, hr, decide_eq_false (lt_irrefl _)⟩
      have hpos : 0 < rest.length := List.length_pos_of_mem hw
      rw [hbest.countP_eq, List.countP_append, hnone] at hcount
      omega

end Groups

end MergeTree
