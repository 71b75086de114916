import MergeTree.Proof.ActiveDataPartSet

/-!
# What calls by name do to a set of parts

A set that the queue keeps is filled by name, so the name of each entry parses to its
part (`WellNamed`). Adding a name keeps everything covered that was covered
(`addName_covers`); removing a part, with or without what it covers, takes only parts
out that it contains (`removeName_removed`, `removePartAndCoveredParts_removed`).
-/

namespace MergeTree

namespace ActiveDataPartSet

variable {S T U : ActiveDataPartSet} {p q : PartInfo} {e f : Entry}

/-- Some stored part contains `p`. -/
def HasCovering (S : ActiveDataPartSet) (p : PartInfo) : Prop := ∃ e ∈ S, e.1.Contains p

theorem HasCovering.of_contains (h : S.HasCovering p) (hpq : p.Contains q) : S.HasCovering q := by
  obtain ⟨e, he, hc⟩ := h
  exact ⟨e, he, hc.trans hpq⟩

variable [IntText]

/-- **A set of disjoint parts in which each name is the name of its part.** -/
structure WellNamed (S : ActiveDataPartSet) : Prop where
  laid : S.Laid
  named : ∀ e ∈ S, fromPartName e.2 S.formatVersion = .ok e.1

theorem WellNamed.empty (v : ℕ) : WellNamed { formatVersion := v } :=
  ⟨Laid.empty v, fun e he => absurd he (KeyedSet.notMem_empty e)⟩

theorem WellNamed.subset (h : S.WellNamed) (hv : T.formatVersion = S.formatVersion) (hT : ∀ e ∈ T, e ∈ S) :
    T.WellNamed := by
  refine ⟨h.laid.subset hT, ?_⟩
  intro e he
  rw [hv]
  exact h.named e (hT e he)

/-! ## Adding -/

theorem hasCovering_addImpl (hS : S.Laid) (hp : p.Proper) (name : String)
    (ho : (S.addImpl p name).outcome ≠ .hasIntersectingPart) : (S.addImpl p name).set.HasCovering p := by
  have hok := addImpl_ok hS hp name
  by_cases ha : (S.addImpl p name).outcome = .added
  · exact ⟨(p, name), (hok.mem_set ha _).2 (Or.inr rfl), PartInfo.Contains.refl p⟩
  · have hc : (S.addImpl p name).outcome = .hasCovering := by
      cases hcase : (S.addImpl p name).outcome <;> simp_all
    rw [addImpl_set_of_hasCovering hc]
    exact hok.hasCovering.1 hc

theorem HasCovering.addImpl (hS : S.Laid) (hp : p.Proper) (name : String)
    (ho : (S.addImpl p name).outcome ≠ .hasIntersectingPart) (hq : S.HasCovering q) :
    (S.addImpl p name).set.HasCovering q := by
  have hok := addImpl_ok hS hp name
  by_cases ha : (S.addImpl p name).outcome = .added
  · obtain ⟨e, he, hc⟩ := hq
    by_cases hpe : p.Contains e.1
    · exact (hasCovering_addImpl hS hp name ho).of_contains (hpe.trans hc)
    · exact ⟨e, (hok.mem_set ha e).2 (Or.inl ⟨he, hpe⟩), hc⟩
  · have hc : (S.addImpl p name).outcome = .hasCovering := by
      cases hcase : (S.addImpl p name).outcome <;> simp_all
    rw [addImpl_set_of_hasCovering hc]
    exact hq

theorem addName_eq_ok {name : String} {r : Bool × List String} (h : S.addName name = (T, .ok r)) :
    ∃ p, fromPartName name S.formatVersion = .ok p ∧ T = (S.addImpl p name).set ∧
      (S.addImpl p name).outcome ≠ .hasIntersectingPart := by
  unfold addName at h
  split at h
  · next p hp =>
    unfold ActiveDataPartSet.add at h
    simp only [Prod.mk.injEq] at h
    obtain ⟨hT, hr⟩ := h
    refine ⟨p, hp, hT.symm, ?_⟩
    intro ho
    rw [if_pos ho] at hr
    cases hr
  · simp at h

/-- **Adding a name.** The part of the name is covered afterwards, and so is everything
that was covered before. -/
theorem addName_covers (hS : S.WellNamed) {name : String} {r : Bool × List String}
    (h : S.addName name = (T, .ok r)) : T.WellNamed ∧ T.formatVersion = S.formatVersion ∧
      (∃ p, fromPartName name S.formatVersion = .ok p ∧ T.HasCovering p) ∧
      ∀ q, S.HasCovering q → T.HasCovering q := by
  obtain ⟨p, hp, rfl, ho⟩ := addName_eq_ok h
  have hpp := fromPartName_proper hp
  have hok := addImpl_ok hS.laid hpp name
  have hv := addImpl_formatVersion S p name
  refine ⟨⟨hS.laid.addImpl hpp name, ?_⟩, hv, ⟨p, hp, hasCovering_addImpl hS.laid hpp name ho⟩,
    fun q hq => hq.addImpl hS.laid hpp name ho⟩
  intro e he
  rw [hv]
  by_cases ha : (S.addImpl p name).outcome = .added
  · rcases (hok.mem_set ha e).1 he with ⟨heS, -⟩ | rfl
    · exact hS.named e heS
    · exact hp
  · exact hS.named e (hok.refused ha e he)

/-! ## Removing -/

omit [IntText] in
theorem mem_remove : e ∈ (S.remove p).1 ↔ e ∈ S ∧ e.1.toTuple ≠ p.toTuple := by
  unfold remove
  exact KeyedSet.mem_erase

/-- What a removal takes out of `S` is contained in `p`. -/
structure Removed (p : PartInfo) (S T : ActiveDataPartSet) : Prop where
  formatVersion : T.formatVersion = S.formatVersion
  subset : ∀ e ∈ T, e ∈ S
  rest : ∀ e ∈ S, e ∈ T ∨ p.Contains e.1

omit [IntText] in
theorem Removed.refl (p : PartInfo) (S : ActiveDataPartSet) : Removed p S S :=
  ⟨rfl, fun _ he => he, fun _ he => Or.inl he⟩

omit [IntText] in
theorem Removed.trans (h : Removed p S T) (h' : Removed p T U) : Removed p S U := by
  refine ⟨h'.formatVersion.trans h.formatVersion, fun e he => h.subset e (h'.subset e he), ?_⟩
  intro e he
  rcases h.rest e he with heT | hc
  · exact h'.rest e heT
  · exact Or.inr hc

omit [IntText] in
theorem Removed.mono (h : Removed p S T) (hqp : q.Contains p) : Removed q S T :=
  ⟨h.formatVersion, h.subset, fun e he => (h.rest e he).imp_right fun hc => hqp.trans hc⟩

theorem Removed.wellNamed (h : Removed p S T) (hS : S.WellNamed) : T.WellNamed :=
  hS.subset h.formatVersion h.subset

omit [IntText] in
theorem Removed.hasCovering (h : Removed p S T) (hq : S.HasCovering q) (hpq : ¬ p.Contains q) :
    T.HasCovering q := by
  obtain ⟨e, he, hc⟩ := hq
  rcases h.rest e he with heT | hpe
  · exact ⟨e, heT, hc⟩
  · exact absurd (hpe.trans hc) hpq

omit [IntText] in
theorem remove_removed (S : ActiveDataPartSet) (p : PartInfo) : Removed p S (S.remove p).1 := by
  refine ⟨rfl, fun e he => (mem_remove.1 he).1, ?_⟩
  intro e he
  by_cases h : e.1.toTuple = p.toTuple
  · exact Or.inr (PartInfo.Eqv.contains (p := p) (q := e.1) h.symm)
  · exact Or.inl (mem_remove.2 ⟨he, h⟩)

theorem removeName_removed {name : String} (hp : fromPartName name S.formatVersion = .ok p) :
    (S.removeName name).2 = .ok (S.remove p).2 ∧ Removed p S (S.removeName name).1 := by
  unfold removeName
  rw [hp]
  exact ⟨rfl, remove_removed S p⟩

omit [IntText] in
theorem mem_of_mem_getPartsCoveredByImpl (h : e ∈ S.getPartsCoveredByImpl p) : e ∈ S ∧ p.Contains e.1 := by
  unfold getPartsCoveredByImpl at h
  simp only at h
  split at h
  · cases h
  · split at h
    · cases h
    · rcases List.mem_append.1 h with h | h
      · rw [List.mem_reverse] at h
        have hc := List.mem_takeWhile_imp h
        have hm := (List.takeWhile_prefix _).subset h
        exact ⟨(mem_toTheLeft.1 hm).1, by simpa [covers] using hc⟩
      · have hc := List.mem_takeWhile_imp h
        have hm := (List.takeWhile_prefix _).subset h
        exact ⟨(mem_toTheRight.1 hm).1, by simpa [covers] using hc⟩

theorem removeAll_removed : ∀ {names : List String} {S : ActiveDataPartSet} (b : Bool),
    (∀ name ∈ names, ∃ q, fromPartName name S.formatVersion = .ok q ∧ p.Contains q) →
    (∃ b', (S.removeAll names b).2 = .ok b') ∧ Removed p S (S.removeAll names b).1 := by
  intro names
  induction names with
  | nil =>
    intro S b _
    exact ⟨⟨b, rfl⟩, Removed.refl p S⟩
  | cons name names ih =>
    intro S b h
    obtain ⟨q, hq, hc⟩ := h name List.mem_cons_self
    obtain ⟨hres, hrem⟩ := removeName_removed hq
    have hcall : S.removeName name = ((S.removeName name).1, .ok (S.remove q).2) := by rw [← hres]
    have hrest := ih (S := (S.removeName name).1) (b && (S.remove q).2) fun other hother => by
      rw [hrem.formatVersion]
      exact h other (List.mem_cons_of_mem _ hother)
    rw [removeAll, hcall]
    exact ⟨hrest.1, (hrem.mono hc).trans hrest.2⟩

/-- `removePartAndCoveredParts` takes out parts that the part contains, and does not throw. -/
theorem removePartAndCoveredParts_removed (hS : S.WellNamed) (p : PartInfo) :
    (∃ b, (S.removePartAndCoveredParts p).2 = .ok b) ∧ Removed p S (S.removePartAndCoveredParts p).1 := by
  have hfirst := remove_removed S p
  have hnames : ∀ name ∈ S.getPartsCoveredBy p,
      ∃ q, fromPartName name (S.remove p).1.formatVersion = .ok q ∧ p.Contains q := by
    intro name hname
    obtain ⟨e, he, rfl⟩ := List.mem_map.1 hname
    obtain ⟨heS, hc⟩ := mem_of_mem_getPartsCoveredByImpl he
    exact ⟨e.1, hS.named e heS, hc⟩
  obtain ⟨hok, hrest⟩ := removeAll_removed (S := (S.remove p).1) (S.remove p).2 hnames
  exact ⟨hok, hfirst.trans hrest⟩

theorem removePartAndCoveredPartsName_removed (hS : S.WellNamed) {name : String}
    (hp : fromPartName name S.formatVersion = .ok p) :
    (∃ b, (S.removePartAndCoveredPartsName name).2 = .ok b) ∧
      Removed p S (S.removePartAndCoveredPartsName name).1 := by
  unfold removePartAndCoveredPartsName
  rw [hp]
  exact removePartAndCoveredParts_removed hS p

end ActiveDataPartSet

end MergeTree
