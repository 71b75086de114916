import MergeTree.Lib.KeyedSet

/-!
# Sets of disjoint intervals

Half-open intervals of a linear order, kept in the order of their left ends. An interval is
added when it meets neither of its two neighbours, which is enough to keep all of them
disjoint (`DisjointIntervals.disjoint_of_fits`).
-/

variable {κ : Type*} [LinearOrder κ]

/-- A non-empty half-open interval. -/
@[ext] structure HalfOpen (κ : Type*) [LinearOrder κ] where
  left : κ
  right : κ
  left_lt_right : left < right
deriving DecidableEq

namespace HalfOpen

/-- The points of an interval. -/
def Contains (a : HalfOpen κ) (x : κ) : Prop := a.left ≤ x ∧ x < a.right

/-- One interval ends before the other one begins. -/
def Disjoint (a b : HalfOpen κ) : Prop := a.right ≤ b.left ∨ b.right ≤ a.left

instance (a : HalfOpen κ) (x : κ) : Decidable (a.Contains x) := inferInstanceAs (Decidable (_ ∧ _))

instance (a b : HalfOpen κ) : Decidable (a.Disjoint b) := inferInstanceAs (Decidable (_ ∨ _))

variable {a b : HalfOpen κ}

theorem Disjoint.symm (h : a.Disjoint b) : b.Disjoint a := Or.symm h

theorem Disjoint.right_le (h : a.Disjoint b) (hle : a.left ≤ b.left) : a.right ≤ b.left := by
  rcases h with h | h
  · exact h
  · exact absurd (b.left_lt_right.trans_le h) (not_lt.2 hle)

end HalfOpen

namespace KeyedSet

variable {α : Type*} {key : α → κ} {S : KeyedSet key} {k : κ}

/-- The position of the first element with a greater key, `std::set::upper_bound`. -/
def upperBound (S : KeyedSet key) (k : κ) : ℕ := S.toList.findIdx fun a => k < key a

theorem key_le_of_lt_upperBound {n : ℕ} {a : α} (h : S.toList[n]? = some a) (hn : n < S.upperBound k) : key a ≤ k := by
  obtain ⟨hlt, rfl⟩ := List.getElem?_eq_some_iff.1 h
  have hnot := List.not_of_lt_findIdx hn
  simpa using hnot

theorem lt_key_of_upperBound_le {n : ℕ} {a : α} (h : S.toList[n]? = some a) (hn : S.upperBound k ≤ n) : k < key a := by
  obtain ⟨hlt, rfl⟩ := List.getElem?_eq_some_iff.1 h
  have hbound : S.upperBound k < S.toList.length := lt_of_le_of_lt hn hlt
  have hfirst : k < key S.toList[S.upperBound k] := by
    have hfound := List.findIdx_getElem (w := hbound)
    exact of_decide_eq_true hfound
  rcases hn.eq_or_lt with heq | hn
  · subst heq
    exact hfirst
  · exact hfirst.trans (List.pairwise_iff_getElem.1 S.sorted _ _ hbound hlt hn)

/-- The element before the upper bound has the greatest key that is not greater. -/
theorem key_le_key_of_lt_upperBound {n : ℕ} {a b : α} (ha : S.toList[n]? = some a) (hn : n < S.upperBound k)
    (hb : S.toList[S.upperBound k - 1]? = some b) : a = b ∨ key a < key b := by
  obtain ⟨hlt, rfl⟩ := List.getElem?_eq_some_iff.1 ha
  obtain ⟨hlt', rfl⟩ := List.getElem?_eq_some_iff.1 hb
  rcases (show n ≤ S.upperBound k - 1 by omega).eq_or_lt with heq | h
  · exact .inl (by simp only [heq])
  · exact .inr (List.pairwise_iff_getElem.1 S.sorted _ _ hlt hlt' h)

/-- The position of the first element with a key that is not less, `std::set::lower_bound`. -/
def lowerBound (S : KeyedSet key) (k : κ) : ℕ := S.toList.findIdx fun a => k ≤ key a

theorem upperBound_le_length : S.upperBound k ≤ S.toList.length := List.findIdx_le_length

theorem lowerBound_ne_upperBound {k' : κ} (h : k ≤ k') : S.lowerBound k ≠ S.upperBound k' ↔ ∃ a ∈ S, k ≤ key a ∧ key a ≤ k' := by
  have hle : S.lowerBound k ≤ S.upperBound k' := by
    by_contra hlt
    have hbound : S.upperBound k' < S.toList.length := lt_of_lt_of_le (not_le.1 hlt) List.findIdx_le_length
    have hfirst := lt_key_of_upperBound_le (List.getElem?_eq_getElem hbound) le_rfl
    have hnot := List.not_of_lt_findIdx (not_le.1 hlt)
    exact of_decide_eq_false (by simpa using hnot) (h.trans hfirst.le)
  constructor
  · intro hne
    have hlt : S.lowerBound k < S.upperBound k' := lt_of_le_of_ne hle hne
    have hbound : S.lowerBound k < S.toList.length := hlt.trans_le upperBound_le_length
    have hfound := List.findIdx_getElem (w := hbound)
    exact ⟨_, mem_def.2 (List.getElem_mem hbound), of_decide_eq_true hfound,
      key_le_of_lt_upperBound (List.getElem?_eq_getElem hbound) hlt⟩
  · rintro ⟨a, ha, hlow, hhigh⟩ heq
    obtain ⟨n, hn⟩ := List.mem_iff_getElem?.1 (mem_def.1 ha)
    have hlt : n < S.upperBound k' := by
      by_contra hge
      exact absurd (lt_key_of_upperBound_le hn (not_lt.1 hge)) (not_lt.2 hhigh)
    obtain ⟨hlen, rfl⟩ := List.getElem?_eq_some_iff.1 hn
    have hnot := List.not_of_lt_findIdx (heq ▸ hlt : n < S.lowerBound k)
    exact of_decide_eq_false (by simpa using hnot) hlow

end KeyedSet

/-- **A set of disjoint intervals**, in the order of their left ends. -/
structure DisjointIntervals (κ : Type*) [LinearOrder κ] where
  sorted : KeyedSet (HalfOpen.left : HalfOpen κ → κ)
  disjoint : ∀ a ∈ sorted, ∀ b ∈ sorted, a ≠ b → a.Disjoint b

namespace DisjointIntervals

instance : Membership (HalfOpen κ) (DisjointIntervals κ) := ⟨fun S a => a ∈ S.sorted⟩

theorem mem_def {S : DisjointIntervals κ} {a : HalfOpen κ} : a ∈ S ↔ a ∈ S.sorted := Iff.rfl

/-- No interval. -/
def empty : DisjointIntervals κ := ⟨.empty, fun _ ha => absurd ha (KeyedSet.notMem_empty _)⟩

@[simp] theorem notMem_empty (a : HalfOpen κ) : a ∉ (empty : DisjointIntervals κ) := by simp [mem_def, empty]

variable (S : DisjointIntervals κ) (a : HalfOpen κ)

/-- The interval meets neither the first one that begins after it nor the one before that. -/
def Fits : Prop :=
  (∀ next ∈ S.sorted.toList[S.sorted.upperBound a.left]?, a.Disjoint next) ∧
    (S.sorted.upperBound a.left ≠ 0 → ∀ previous ∈ S.sorted.toList[S.sorted.upperBound a.left - 1]?, a.Disjoint previous)

instance : Decidable (S.Fits a) := inferInstanceAs (Decidable (_ ∧ _))

variable {S a}

/-- **The test of the neighbours is enough.** -/
theorem disjoint_of_fits (h : S.Fits a) : ∀ b ∈ S, a.Disjoint b := by
  intro b hb
  obtain ⟨hnext, hprevious⟩ := h
  obtain ⟨n, hn⟩ := List.mem_iff_getElem?.1 (KeyedSet.mem_def.1 hb)
  rcases Nat.lt_or_ge n (S.sorted.upperBound a.left) with hlt | hge
  · -- `b` begins before `a` does, so it ends before the neighbour on the left begins
    have hbound : S.sorted.upperBound a.left - 1 < S.sorted.toList.length := by
      have hle : S.sorted.upperBound a.left ≤ S.sorted.toList.length := KeyedSet.upperBound_le_length
      omega
    have hfound := List.getElem?_eq_getElem hbound
    set previous := S.sorted.toList[S.sorted.upperBound a.left - 1] with hdef
    have hle := KeyedSet.key_le_of_lt_upperBound (k := a.left) hfound (by omega)
    have hends := (hprevious (by omega) previous hfound).symm.right_le hle
    rcases KeyedSet.key_le_key_of_lt_upperBound hn hlt hfound with rfl | hkey
    · exact .inr hends
    · have hmem : previous ∈ S.sorted := KeyedSet.mem_def.2 (List.mem_of_getElem? hfound)
      have hne : b ≠ previous := fun heq => absurd hkey (by rw [heq]; exact lt_irrefl _)
      exact .inr (((S.disjoint b hb previous hmem hne).right_le hkey.le).trans hle)
  · -- `b` begins after `a` does, and not before the neighbour on the right
    have hbound : S.sorted.upperBound a.left < S.sorted.toList.length := by
      obtain ⟨hlt, -⟩ := List.getElem?_eq_some_iff.1 hn
      omega
    have hfound := List.getElem?_eq_getElem hbound
    set next := S.sorted.toList[S.sorted.upperBound a.left] with hdef
    have hlt := KeyedSet.lt_key_of_upperBound_le hfound le_rfl
    have hends := (hnext next hfound).right_le hlt.le
    refine .inl (hends.trans ?_)
    rcases hge.eq_or_lt with heq | hgt
    · rw [← heq, hfound] at hn
      exact (congrArg HalfOpen.left (Option.some.inj hn)).le
    · obtain ⟨hlen, rfl⟩ := List.getElem?_eq_some_iff.1 hn
      exact (List.pairwise_iff_getElem.1 S.sorted.sorted _ _ hbound hlen hgt).le

theorem fits_of_disjoint (h : ∀ b ∈ S, a.Disjoint b) : S.Fits a :=
  ⟨fun _ hnext => h _ (KeyedSet.mem_def.2 (List.mem_of_getElem? hnext)),
    fun _ _ hprevious => h _ (KeyedSet.mem_def.2 (List.mem_of_getElem? hprevious))⟩

variable (S a)

/-- Adds an interval that fits. -/
def addIfPossible : Option (DisjointIntervals κ) :=
  if h : S.Fits a then
    some
      { sorted := S.sorted.emplace a
        disjoint := by
          have hfits := disjoint_of_fits h
          intro b hb c hc hne
          rcases KeyedSet.mem_emplace.1 hb with hb | ⟨hb, -⟩ <;> rcases KeyedSet.mem_emplace.1 hc with hc | ⟨hc, -⟩
          · exact S.disjoint b hb c hc hne
          · exact hc ▸ (hfits b hb).symm
          · exact hb ▸ hfits c hc
          · exact absurd (hb.trans hc.symm) hne }
  else none

variable {S a}

theorem mem_of_addIfPossible {S' : DisjointIntervals κ} (h : S.addIfPossible a = some S') :
    (∀ b ∈ S, a.Disjoint b) ∧ ∀ b, b ∈ S' ↔ b = a ∨ b ∈ S := by
  unfold addIfPossible at h
  split at h
  · next hfits =>
    obtain rfl := Option.some.inj h
    have hdisjoint := disjoint_of_fits hfits
    refine ⟨hdisjoint, fun b => ?_⟩
    have hnew : ∀ b ∈ S.sorted, b.left ≠ a.left := by
      intro b hb heq
      rcases hdisjoint b hb with hle | hle
      · exact absurd (a.left_lt_right.trans_le hle) (by rw [heq]; exact lt_irrefl _)
      · exact absurd (b.left_lt_right.trans_le hle) (by rw [heq]; exact lt_irrefl _)
    constructor
    · intro hb
      rcases KeyedSet.mem_emplace.1 hb with hb | ⟨rfl, -⟩
      · exact .inr hb
      · exact .inl rfl
    · rintro (rfl | hb)
      · exact KeyedSet.mem_emplace.2 (.inr ⟨rfl, hnew⟩)
      · exact KeyedSet.mem_emplace.2 (.inl hb)
  · cases h

theorem isSome_addIfPossible (h : ∀ b ∈ S, a.Disjoint b) : (S.addIfPossible a).isSome := by
  unfold addIfPossible
  rw [dif_pos (fits_of_disjoint h)]
  rfl

variable (S) in
/-- The interval before the upper bound of the point contains it. -/
def covers (x : κ) : Bool :=
  if S.sorted.upperBound x = 0 then false
  else
    match S.sorted.toList[S.sorted.upperBound x - 1]? with
    | some a => a.Contains x
    | none => false

end DisjointIntervals
