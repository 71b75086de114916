import Mathlib

/-!
# Ordered containers

`KeyedSet key` is the model of an ordered associative container (`std::map`,
`std::set`): the elements in iteration order, strictly ascending in `key`. The
container's order is the linear order of the keys, so two elements with the same
key are the same entry for it even when they differ elsewhere.

* `below` and `above` are the two sides of `lower_bound`.
* `emplace` inserts an element whose key is absent and otherwise does nothing.
* `erase` removes the element of a key.
* `keep` and `ofSublist` restrict a container without reordering it.
-/

variable {α κ : Type*} [LinearOrder κ] {key : α → κ}

/-- **An ordered container**: its elements in ascending order of their keys. -/
structure KeyedSet (key : α → κ) where
  toList : List α
  sorted : toList.Pairwise (fun a b => key a < key b)

namespace KeyedSet

variable {S : KeyedSet key} {a : α} {k : κ}

instance : Membership α (KeyedSet key) := ⟨fun S a => a ∈ S.toList⟩

theorem mem_def : a ∈ S ↔ a ∈ S.toList := Iff.rfl

instance (S : KeyedSet key) (p : α → Prop) [DecidablePred p] : Decidable (∀ a ∈ S, p a) :=
  inferInstanceAs (Decidable (∀ a ∈ S.toList, p a))

instance (S : KeyedSet key) (p : α → Prop) [DecidablePred p] : Decidable (∃ a ∈ S, p a) :=
  inferInstanceAs (Decidable (∃ a ∈ S.toList, p a))

@[ext] theorem ext {S T : KeyedSet key} (h : S.toList = T.toList) : S = T := by
  cases S; cases T; simp_all

/-- The container with no element. -/
def empty : KeyedSet key := ⟨[], List.Pairwise.nil⟩

@[simp] theorem toList_empty : (empty : KeyedSet key).toList = [] := rfl

@[simp] theorem notMem_empty (a : α) : a ∉ (empty : KeyedSet key) := by simp [mem_def]

/-- Some of the elements of a container, in its order. -/
def ofSublist (S : KeyedSet key) (l : List α) (h : l.Sublist S.toList) : KeyedSet key :=
  ⟨l, S.sorted.sublist h⟩

@[simp] theorem toList_ofSublist (S : KeyedSet key) (l : List α) (h : l.Sublist S.toList) :
    (S.ofSublist l h).toList = l := rfl

/-- The elements that satisfy `p`. -/
def keep (S : KeyedSet key) (p : α → Bool) : KeyedSet key :=
  S.ofSublist (S.toList.filter p) List.filter_sublist

@[simp] theorem mem_keep {p : α → Bool} :
    a ∈ S.keep p ↔ a ∈ S ∧ p a = true := by
  simp [mem_def, keep]

/-- The elements before `lower_bound k`. -/
def below (S : KeyedSet key) (k : κ) : List α := S.toList.takeWhile (fun a => key a < k)

/-- The elements from `lower_bound k` on. -/
def above (S : KeyedSet key) (k : κ) : List α := S.toList.dropWhile (fun a => key a < k)

theorem below_append_above (S : KeyedSet key) (k : κ) : S.below k ++ S.above k = S.toList :=
  List.takeWhile_append_dropWhile

theorem below_sublist (S : KeyedSet key) (k : κ) : (S.below k).Sublist S.toList :=
  (List.takeWhile_prefix _).sublist

theorem above_sublist (S : KeyedSet key) (k : κ) : (S.above k).Sublist S.toList :=
  (List.dropWhile_suffix _).sublist

/-- In an ascending list, everything after the `lower_bound` is at least the bound. -/
theorem le_of_mem_dropWhile : ∀ {l : List α}, l.Pairwise (fun a b => key a < key b) →
    ∀ a ∈ l.dropWhile (fun a => key a < k), k ≤ key a := by
  intro l hl
  induction l with
  | nil => intro a ha; simp at ha
  | cons x xs ih =>
    intro a ha
    rw [List.pairwise_cons] at hl
    rw [List.dropWhile_cons] at ha
    split at ha
    · exact ih hl.2 a ha
    · rename_i hx
      have hkx : k ≤ key x := by simpa using hx
      rcases List.mem_cons.1 ha with rfl | ha
      · exact hkx
      · exact hkx.trans (hl.1 a ha).le

theorem mem_below : a ∈ S.below k ↔ a ∈ S ∧ key a < k := by
  constructor
  · intro h
    exact ⟨(S.below_sublist k).subset h, by simpa using List.mem_takeWhile_imp h⟩
  · rintro ⟨h, hlt⟩
    rw [mem_def, ← S.below_append_above k, List.mem_append] at h
    rcases h with h | h
    · exact h
    · exact absurd hlt (le_of_mem_dropWhile S.sorted a h).not_gt

theorem mem_above : a ∈ S.above k ↔ a ∈ S ∧ k ≤ key a := by
  constructor
  · intro h
    exact ⟨(S.above_sublist k).subset h, le_of_mem_dropWhile S.sorted a h⟩
  · rintro ⟨h, hle⟩
    rw [mem_def, ← S.below_append_above k, List.mem_append] at h
    rcases h with h | h
    · exact absurd (mem_below.1 h).2 hle.not_gt
    · exact h

theorem eq_of_key_eq {a b : α} (ha : a ∈ S) (hb : b ∈ S) (h : key a = key b) :
    a = b := by
  have hp : S.toList.Pairwise (fun x y => key x = key y → x = y) :=
    S.sorted.imp fun hlt he => absurd he hlt.ne
  exact List.Pairwise.forall_of_forall_of_flip (fun _ _ _ => rfl) hp
    (hp.imp fun hxy he => (hxy he.symm).symm) ha hb h

/-- The element with key `k`, if any. -/
def find (S : KeyedSet key) (k : κ) : Option α := S.toList.find? (fun a => key a = k)

theorem find_eq_some :
    S.find k = some a ↔ a ∈ S ∧ key a = k := by
  constructor
  · intro h
    exact ⟨List.mem_of_find?_eq_some h, by simpa using List.find?_some h⟩
  · rintro ⟨ha, rfl⟩
    cases hf : S.find (key a) with
    | none =>
      have := List.find?_eq_none.1 hf a ha
      simp at this
    | some b =>
      have hb : b ∈ S := List.mem_of_find?_eq_some hf
      have hk : key b = key a := by simpa using List.find?_some hf
      rw [eq_of_key_eq hb ha hk]

theorem find_eq_none : S.find k = none ↔ ∀ a ∈ S, key a ≠ k := by
  unfold find
  rw [List.find?_eq_none]
  simp [mem_def]

/-- Removes the element with key `k`. -/
def erase (S : KeyedSet key) (k : κ) : KeyedSet key := S.keep (fun a => key a ≠ k)

@[simp] theorem mem_erase :
    a ∈ S.erase k ↔ a ∈ S ∧ key a ≠ k := by
  simp [erase]

theorem insert_sorted (S : KeyedSet key) (a : α) (h : ∀ b ∈ S, key b ≠ key a) :
    (S.below (key a) ++ a :: S.above (key a)).Pairwise (fun x y => key x < key y) := by
  rw [List.pairwise_append, List.pairwise_cons]
  refine ⟨S.sorted.sublist (S.below_sublist _), ⟨?_, S.sorted.sublist (S.above_sublist _)⟩, ?_⟩
  · intro b hb
    obtain ⟨hbS, hle⟩ := mem_above.1 hb
    exact lt_of_le_of_ne hle (h b hbS).symm
  · intro x hx y hy
    have hxa := (mem_below.1 hx).2
    rcases List.mem_cons.1 hy with rfl | hy
    · exact hxa
    · exact hxa.trans_le (mem_above.1 hy).2

/-- Inserts `a` unless its key is present (`emplace`, `insert`). -/
def emplace (S : KeyedSet key) (a : α) : KeyedSet key :=
  if h : S.find (key a) = none then
    ⟨S.below (key a) ++ a :: S.above (key a), S.insert_sorted a (find_eq_none.1 h)⟩
  else S

theorem toList_emplace_of_new (h : ∀ b ∈ S, key b ≠ key a) :
    (S.emplace a).toList = S.below (key a) ++ a :: S.above (key a) := by
  unfold emplace
  rw [dif_pos (find_eq_none.2 h)]

theorem mem_emplace {a b : α} :
    b ∈ S.emplace a ↔ b ∈ S ∨ (b = a ∧ ∀ c ∈ S, key c ≠ key a) := by
  by_cases h : ∀ c ∈ S, key c ≠ key a
  · rw [mem_def, toList_emplace_of_new h, List.mem_append, List.mem_cons, mem_below, mem_above]
    have hkey : b ∈ S → key b < key a ∨ key a ≤ key b := fun _ => lt_or_ge _ _
    tauto
  · unfold emplace
    rw [dif_neg (fun hn => h (find_eq_none.1 hn))]
    tauto

theorem mem_emplace_erase {a b : α} :
    b ∈ (S.erase (key a)).emplace a ↔ b = a ∨ (b ∈ S ∧ key b ≠ key a) := by
  have hnew : ∀ c ∈ S.erase (key a), key c ≠ key a := fun c hc => (mem_erase.1 hc).2
  rw [mem_emplace, mem_erase]
  tauto

/-- Changes the elements, but not their keys (`modify`). -/
def map (S : KeyedSet key) (f : α → α) (h : ∀ a, key (f a) = key a) : KeyedSet key :=
  ⟨S.toList.map f, List.pairwise_map.2 (S.sorted.imp fun hlt => by rwa [h, h])⟩

theorem toList_map {f : α → α} {h : ∀ a, key (f a) = key a} : (S.map f h).toList = S.toList.map f := rfl

theorem mem_map {f : α → α} {h : ∀ a, key (f a) = key a} {b : α} :
    b ∈ S.map f h ↔ ∃ a ∈ S, f a = b := by
  rw [mem_def, toList_map, List.mem_map]
  rfl

theorem head?_eq_some :
    S.toList.head? = some a ↔ a ∈ S ∧ ∀ b ∈ S, key a ≤ key b := by
  constructor
  · intro h
    obtain ⟨l, hl⟩ := List.head?_eq_some_iff.1 h
    have hsorted := S.sorted
    rw [hl, List.pairwise_cons] at hsorted
    refine ⟨by simp [mem_def, hl], fun b hb => ?_⟩
    rw [mem_def, hl, List.mem_cons] at hb
    rcases hb with rfl | hb
    · exact le_rfl
    · exact (hsorted.1 b hb).le
  · rintro ⟨ha, hle⟩
    cases hl : S.toList with
    | nil => simp [mem_def, hl] at ha
    | cons b l =>
      have hb : b ∈ S := by simp [mem_def, hl]
      have hsorted := S.sorted
      rw [hl, List.pairwise_cons] at hsorted
      have hab : a = b := by
        rw [mem_def, hl, List.mem_cons] at ha
        rcases ha with ha | ha
        · exact ha
        · exact absurd (hle b hb) (hsorted.1 a ha).not_ge
      rw [hab, List.head?_cons]

theorem head?_eq_none : S.toList.head? = none ↔ ∀ a, a ∉ S := by
  rw [List.head?_eq_none_iff, List.eq_nil_iff_forall_not_mem]
  exact Iff.rfl

/-! ## Runs next to a bound -/

/-- Erases, going left from `lower_bound k`, the elements that satisfy `p` until one
does not. -/
def eraseBefore (S : KeyedSet key) (k : κ) (p : α → Bool) : KeyedSet key :=
  S.ofSublist (((S.below k).reverse.dropWhile p).reverse ++ S.above k) <| by
    conv_rhs => rw [← S.below_append_above k]
    refine List.Sublist.append ?_ (List.Sublist.refl _)
    rw [← List.reverse_sublist, List.reverse_reverse]
    exact (List.dropWhile_suffix p).sublist

/-- Erases, going right from `lower_bound k`, the elements that satisfy `p` until one
does not. -/
def eraseAfter (S : KeyedSet key) (k : κ) (p : α → Bool) : KeyedSet key :=
  S.ofSublist (S.below k ++ (S.above k).dropWhile p) <| by
    conv_rhs => rw [← S.below_append_above k]
    exact (List.Sublist.refl _).append (List.dropWhile_suffix p).sublist

theorem below_eraseBefore (S : KeyedSet key) (k : κ) (p : α → Bool) :
    (S.eraseBefore k p).below k = ((S.below k).reverse.dropWhile p).reverse := by
  have hlt : ∀ a ∈ ((S.below k).reverse.dropWhile p).reverse, decide (key a < k) = true := by
    intro a ha
    have hb := (List.dropWhile_suffix p).subset (List.mem_reverse.1 ha)
    simpa using (mem_below.1 (List.mem_reverse.1 hb)).2
  have habove : (S.above k).takeWhile (fun a => key a < k) = [] := by
    rw [List.takeWhile_eq_nil_iff]
    intro h0
    simpa using (mem_above.1 (List.getElem_mem h0)).2
  unfold below eraseBefore
  rw [toList_ofSublist, List.takeWhile_append_of_pos hlt, habove, List.append_nil]
  rfl

theorem above_eraseBefore (S : KeyedSet key) (k : κ) (p : α → Bool) :
    (S.eraseBefore k p).above k = S.above k := by
  have h := (S.eraseBefore k p).below_append_above k
  rw [below_eraseBefore] at h
  exact List.append_cancel_left h

theorem below_eraseAfter (S : KeyedSet key) (k : κ) (p : α → Bool) :
    (S.eraseAfter k p).below k = S.below k := by
  have hlt : ∀ a ∈ S.below k, decide (key a < k) = true := by
    intro a ha
    simpa using (mem_below.1 ha).2
  have habove : ((S.above k).dropWhile p).takeWhile (fun a => key a < k) = [] := by
    rw [List.takeWhile_eq_nil_iff]
    intro h0
    have hm := (List.dropWhile_suffix p).subset (List.getElem_mem h0)
    simpa using (mem_above.1 hm).2
  unfold eraseAfter
  rw [below, toList_ofSublist, List.takeWhile_append_of_pos hlt, habove, List.append_nil]

theorem above_eraseAfter (S : KeyedSet key) (k : κ) (p : α → Bool) :
    (S.eraseAfter k p).above k = (S.above k).dropWhile p := by
  have h := (S.eraseAfter k p).below_append_above k
  rw [below_eraseAfter] at h
  exact List.append_cancel_left h

theorem mem_of_mem_eraseBefore {p : α → Bool} (h : a ∈ S.eraseBefore k p) : a ∈ S := by
  simp only [mem_def, eraseBefore, toList_ofSublist, List.mem_append, List.mem_reverse] at h ⊢
  rcases h with h | h
  · have := (List.dropWhile_suffix p).subset h
    exact (S.below_sublist k).subset (List.mem_reverse.1 this)
  · exact (S.above_sublist k).subset h

theorem mem_of_mem_eraseAfter {p : α → Bool} (h : a ∈ S.eraseAfter k p) : a ∈ S := by
  simp only [mem_def, eraseAfter, toList_ofSublist, List.mem_append] at h ⊢
  rcases h with h | h
  · exact (S.below_sublist k).subset h
  · exact (S.above_sublist k).subset ((List.dropWhile_suffix p).subset h)

theorem keys_eq {S T : KeyedSet key} (h : ∀ k, (∃ a ∈ S, key a = k) ↔ ∃ a ∈ T, key a = k) :
    S.toList.map key = T.toList.map key := by
  have hS : (S.toList.map key).Pairwise (· < ·) := List.pairwise_map.2 S.sorted
  have hT : (T.toList.map key).Pairwise (· < ·) := List.pairwise_map.2 T.sorted
  refine List.Perm.eq_of_pairwise (fun a b _ _ hab hba => absurd hab (lt_asymm hba)) hS hT ?_
  rw [List.perm_ext_iff_of_nodup (hS.imp fun hlt => hlt.ne) (hT.imp fun hlt => hlt.ne)]
  intro k
  simpa only [List.mem_map, mem_def] using h k

/-- A container lists its elements in the only ascending order they have. -/
theorem toList_eq_of_mem {l : List α} (hl : l.Pairwise (fun a b => key a < key b)) (h : ∀ a, a ∈ S ↔ a ∈ l) :
    S.toList = l := by
  have hasymm : ∀ a b : α, a ∈ S.toList → b ∈ l → key a < key b → key b < key a → a = b :=
    fun a b _ _ hab hba => absurd hab hba.not_gt
  refine List.Perm.eq_of_pairwise hasymm S.sorted hl ?_
  rw [List.perm_ext_iff_of_nodup (S.sorted.imp fun hlt he => hlt.ne (congrArg key he))
    (hl.imp fun hlt he => hlt.ne (congrArg key he))]
  exact h

theorem ext_of_mem {S T : KeyedSet key} (h : ∀ a, a ∈ S ↔ a ∈ T) : S = T := KeyedSet.ext (toList_eq_of_mem T.sorted h)

/-- What a container holds after elements were assigned to their keys one after another, each to a key of its own. -/
theorem mem_foldl_emplace_erase {l : List α} (hl : l.Pairwise fun a b => key a ≠ key b) {b : α} :
    b ∈ l.foldl (fun S a => (S.erase (key a)).emplace a) S ↔ b ∈ l ∨ (b ∈ S ∧ ∀ a ∈ l, key b ≠ key a) := by
  induction l generalizing S with
  | nil => simp
  | cons a l ih =>
    rw [List.pairwise_cons] at hl
    rw [List.foldl_cons, ih hl.2, mem_emplace_erase, List.forall_mem_cons, List.mem_cons]
    constructor
    · rintro (hb | ⟨rfl | ⟨hb, hne⟩, hrest⟩)
      · exact Or.inl (Or.inr hb)
      · exact Or.inl (Or.inl rfl)
      · exact Or.inr ⟨hb, hne, hrest⟩
    · rintro ((rfl | hb) | ⟨hb, hne, hrest⟩)
      · exact Or.inr ⟨Or.inl rfl, hl.1⟩
      · exact Or.inl hb
      · exact Or.inr ⟨Or.inr ⟨hb, hne⟩, hrest⟩

theorem find_emplace_erase :
    ((S.erase (key a)).emplace a).find k = if k = key a then some a else S.find k := by
  split_ifs with hk
  · exact find_eq_some.2 ⟨mem_emplace_erase.2 (Or.inl rfl), hk.symm⟩
  · ext b
    rw [find_eq_some, find_eq_some, mem_emplace_erase]
    constructor
    · rintro ⟨rfl | ⟨hb, -⟩, hkey⟩
      · exact absurd hkey.symm hk
      · exact ⟨hb, hkey⟩
    · rintro ⟨hb, rfl⟩
      exact ⟨Or.inr ⟨hb, hk⟩, rfl⟩

theorem find_emplace :
    (S.emplace a).find k = if k = key a then some ((S.find k).getD a) else S.find k := by
  cases hfind : S.find (key a) with
  | some b =>
    have hsame : S.emplace a = S := by
      unfold emplace
      rw [dif_neg (by rw [hfind]; nofun)]
    rw [hsame]
    split_ifs with hk
    · rw [hk, hfind, Option.getD_some]
    · rfl
  | none =>
    have herase : S.erase (key a) = S := ext_of_mem fun b => by
      rw [mem_erase]
      exact ⟨fun h => h.1, fun h => ⟨h, find_eq_none.1 hfind b h⟩⟩
    have hreplaced := find_emplace_erase (S := S) (a := a) (k := k)
    rw [herase] at hreplaced
    rw [hreplaced]
    split_ifs with hk
    · rw [hk, hfind, Option.getD_none]
    · rfl

@[simp] theorem find_empty (k : κ) : (empty : KeyedSet key).find k = none := rfl

/-- A search that starts before the bound ends where one from the beginning does. -/
theorem dropWhile_above {x k : κ} (hle : x ≤ k) : (S.above x).dropWhile (fun a => key a < k) = S.above k := by
  unfold above
  induction S.toList with
  | nil => rfl
  | cons a l ih =>
    by_cases hx : key a < x
    · rw [List.dropWhile_cons_of_pos (by simpa using hx), ih, List.dropWhile_cons_of_pos (by simpa using hx.trans_le hle)]
    · rw [List.dropWhile_cons_of_neg (by simpa using hx)]

theorem head?_above (S : KeyedSet key) (k : κ) : ((S.above k).head?.filter fun a => key a = k) = S.find k := by
  ext a
  rw [find_eq_some, Option.filter_eq_some_iff, decide_eq_true_eq]
  refine and_congr_left fun hk => ⟨fun h => (mem_above.1 (List.mem_of_head? h)).1, fun h => ?_⟩
  subst hk
  have hmem : a ∈ S.above (key a) := mem_above.2 ⟨h, le_rfl⟩
  have hsorted : (S.above (key a)).Pairwise fun a b => key a < key b := S.sorted.sublist (S.above_sublist _)
  cases habove : S.above (key a) with
  | nil => rw [habove] at hmem; cases hmem
  | cons b l =>
    rw [habove] at hmem hsorted
    have hb : key a ≤ key b := (mem_above.1 (by rw [habove]; exact List.mem_cons_self)).2
    rcases List.mem_cons.1 hmem with rfl | hl
    · rfl
    · exact absurd ((List.pairwise_cons.1 hsorted).1 a hl) hb.not_gt

end KeyedSet
