import MergeTree.Lib.Span
import MergeTree.Spec.PartInfo

/-!
# Containment, disjointness and the part order

* `Contains` is a partial order up to the kind (`Contains.refl`, `Contains.trans`, `Contains.antisymm`),
  for any levels.
* A part contained in another one meets it, and inherits its disjointness
  (`Contains.isDisjoint`).
* The map order sorts parts by group and by lower block (`span_le`), so the facts
  about grouped intervals apply to a sorted family of parts.
-/

namespace MergeTree

namespace PartInfo

variable {p q r : PartInfo}

theorem eqv_iff : p.Eqv q ↔ p.kind = q.kind ∧ p.partitionId = q.partitionId ∧
    p.minBlock = q.minBlock ∧ p.maxBlock = q.maxBlock ∧ p.level = q.level ∧ p.mutation = q.mutation := by
  unfold Eqv toTuple
  simp only [toLex_inj, Prod.mk.injEq]

theorem Eqv.symm (h : p.Eqv q) : q.Eqv p := Eq.symm h

/-! ## Containment -/

theorem Contains.refl (p : PartInfo) : p.Contains p :=
  ⟨rfl, le_rfl, le_rfl, le_rfl, le_rfl, Or.inl ⟨rfl, rfl⟩⟩

theorem Contains.trans (h : p.Contains q) (h' : q.Contains r) : p.Contains r := by
  obtain ⟨h1, h2, h3, h4, h5, h6⟩ := h
  obtain ⟨g1, g2, g3, g4, g5, g6⟩ := h'
  refine ⟨h1.trans g1, by omega, by omega, by omega, by omega, ?_⟩
  unfold StrictlyContainsBlockRange at *
  omega

theorem Contains.antisymm (h : p.Contains q) (h' : q.Contains p) (hk : p.kind = q.kind) : p.Eqv q := by
  obtain ⟨h1, h2, h3, h4, h5, -⟩ := h
  obtain ⟨-, g2, g3, g4, g5, -⟩ := h'
  exact eqv_iff.2 ⟨hk, h1, by omega, by omega, by omega, by omega⟩

theorem Eqv.contains (h : p.Eqv q) : p.Contains q := by
  obtain ⟨-, h1, h2, h3, h4, h5⟩ := eqv_iff.1 h
  exact ⟨h1, h2.le, h3.ge, h4.ge, h5.ge, Or.inl ⟨h2, h3⟩⟩

/-! ## Disjointness -/

theorem IsDisjoint.symm (h : p.IsDisjoint q) : q.IsDisjoint p := by
  rcases h with h | h | h
  · exact Or.inl (Ne.symm h)
  · exact Or.inr (Or.inr h)
  · exact Or.inr (Or.inl h)

theorem Contains.isDisjoint (h : p.Contains q) (hd : p.IsDisjoint r) : q.IsDisjoint r := by
  obtain ⟨h1, h2, h3, -⟩ := h
  rcases hd with hd | hd | hd
  · exact Or.inl (h1 ▸ hd)
  · exact Or.inr (Or.inl (by omega))
  · exact Or.inr (Or.inr (by omega))

theorem not_isDisjoint_self (hp : p.minBlock ≤ p.maxBlock) : ¬ p.IsDisjoint p := by
  unfold IsDisjoint
  simp only [ne_eq, not_true_eq_false, false_or, or_self, not_lt]
  exact hp

theorem Contains.not_isDisjoint (h : p.Contains q) (hq : q.minBlock ≤ q.maxBlock) : ¬ p.IsDisjoint q :=
  fun hd => not_isDisjoint_self hq (h.isDisjoint hd)

theorem not_isDisjoint_of_contains (hp : p.Contains r) (hq : q.Contains r)
    (hr : r.minBlock ≤ r.maxBlock) : ¬ p.IsDisjoint q :=
  fun hd => hq.not_isDisjoint hr (hp.isDisjoint hd).symm

/-! ## The part order -/

/-- The group and the block range of a part. -/
def span (p : PartInfo) : Span (Kind ×ₗ String) where
  grp := toLex (p.kind, p.partitionId)
  lo := p.minBlock
  hi := p.maxBlock

theorem toTuple_le_iff : p.toTuple ≤ q.toTuple ↔ p.kind < q.kind ∨ (p.kind = q.kind ∧
    (p.partitionId < q.partitionId ∨ (p.partitionId = q.partitionId ∧ (p.minBlock < q.minBlock ∨
      (p.minBlock = q.minBlock ∧ (p.maxBlock < q.maxBlock ∨ (p.maxBlock = q.maxBlock ∧
        (p.level < q.level ∨ (p.level = q.level ∧ p.mutation ≤ q.mutation))))))))) := by
  simp only [toTuple, Prod.Lex.toLex_le_toLex]

/-- **The map order sorts by group, then by lower block.** -/
theorem span_le (h : p.toTuple ≤ q.toTuple) : p.span.Le q.span := by
  unfold Span.Le span
  simp only [Prod.Lex.toLex_lt_toLex, toLex_inj, Prod.mk.injEq]
  rcases toTuple_le_iff.1 h with h | ⟨hk, h | ⟨hp, h | ⟨hm, -⟩⟩⟩
  · exact Or.inl (Or.inl h)
  · exact Or.inl (Or.inr ⟨hk, h⟩)
  · exact Or.inr ⟨⟨hk, hp⟩, h.le⟩
  · exact Or.inr ⟨⟨hk, hp⟩, hm.le⟩

theorem Proper.nonempty (hp : p.Proper) : p.span.Nonempty := hp.blocks

theorem Proper.kind_eq (hp : p.Proper) (hq : q.Proper) (h : p.partitionId = q.partitionId) :
    p.kind = q.kind := by
  rw [hp.kind, hq.kind, h]

theorem isDisjoint_iff_span_of_kind (h : p.partitionId = q.partitionId → p.kind = q.kind) :
    p.IsDisjoint q ↔ p.span.Disjoint q.span := by
  have hg : p.span.grp = q.span.grp ↔ p.partitionId = q.partitionId := by
    simp only [span, toLex_inj, Prod.mk.injEq]
    exact ⟨fun h => h.2, fun hpq => ⟨h hpq, hpq⟩⟩
  unfold IsDisjoint Span.Disjoint
  rw [ne_eq, ne_eq, hg]
  rfl

theorem isDisjoint_iff_span (hp : p.Proper) (hq : q.Proper) :
    p.IsDisjoint q ↔ p.span.Disjoint q.span :=
  isDisjoint_iff_span_of_kind (hp.kind_eq hq)

/-- **Before a part that is not past `r`**, every part disjoint from it misses `r`. -/
theorem isDisjoint_of_before (hp : p.Proper) (hq : q.Proper) (hr : r.Proper)
    (hpq : p.toTuple ≤ q.toTuple) (hqr : q.toTuple ≤ r.toTuple) (hd : p.IsDisjoint q) :
    p.IsDisjoint r :=
  (isDisjoint_iff_span hp hr).2
    (Span.left_of (span_le hpq) (span_le hqr) ((isDisjoint_iff_span hp hq).1 hd) hq.nonempty)

/-- **After a part past `r` that misses `r`**, every part misses `r`. -/
theorem isDisjoint_of_after (hp : p.Proper) (hq : q.Proper) (hr : r.Proper)
    (hrp : r.toTuple ≤ p.toTuple) (hpq : p.toTuple ≤ q.toTuple) (hd : p.IsDisjoint r) :
    q.IsDisjoint r :=
  (isDisjoint_iff_span hq hr).2
    (Span.right_of (span_le hrp) (span_le hpq) ((isDisjoint_iff_span hp hr).1 hd) hp.nonempty)

theorem toTuple_lt_of_minBlock_lt (hp : p.Proper) (hq : q.Proper) (h : p.partitionId = q.partitionId)
    (hlt : p.minBlock < q.minBlock) : p.toTuple < q.toTuple := by
  rw [← not_le, toTuple_le_iff]
  have hk := hp.kind_eq hq h
  rw [hk, h]
  simp only [lt_irrefl, true_and, false_or]
  omega

/-! ## The laws of containment -/

/-- The parts intersect, and none contains the other. -/
def MeetsWithoutNesting (p q : PartInfo) : Prop := ¬ p.IsDisjoint q ∧ ¬ p.Contains q ∧ ¬ q.Contains p

instance (p q : PartInfo) : Decidable (p.MeetsWithoutNesting q) := inferInstanceAs (Decidable (_ ∧ _ ∧ _))

theorem Contains.of_meets (h : p.Contains q) (hc : q.MeetsWithoutNesting r) : ¬ p.IsDisjoint r ∧ (p.Contains r ∨ p.MeetsWithoutNesting r) := by
  have hmeets : ¬ p.IsDisjoint r := fun hd => hc.1 (h.isDisjoint hd)
  refine ⟨hmeets, ?_⟩
  by_cases hp : p.Contains r
  · exact Or.inl hp
  · exact Or.inr ⟨hmeets, hp, fun hr => hc.2.2 (hr.trans h)⟩

/-- The laws of containment and disjointness for three parts. -/
structure ContainmentLaws (p q r : PartInfo) : Prop where
  refl : p.Contains p
  trans : p.Contains q → q.Contains r → p.Contains r
  antisymm : p.Contains q → q.Contains p → p.Eqv q
  meets : p.Contains q ∨ q.Contains p → ¬ p.IsDisjoint q
  disjoint : p.Contains q → p.IsDisjoint r → q.IsDisjoint r
  crossing : q.MeetsWithoutNesting r → p.Contains q →
    ¬ p.IsDisjoint r ∧ (p.Contains r ∨ p.MeetsWithoutNesting r)

/-- **Containment is a partial order that goes with disjointness**, for any levels, exactly if the two
parts do not differ in their kind alone: `contains` does not look at the kind, and `operator==` does. -/
theorem containmentLaws_iff (p q r : PartInfo) (hp : p.minBlock ≤ p.maxBlock) (hq : q.minBlock ≤ q.maxBlock) :
    ContainmentLaws p q r ↔ (p.partitionId = q.partitionId → p.minBlock = q.minBlock →
      p.maxBlock = q.maxBlock → p.level = q.level → p.mutation = q.mutation → p.kind = q.kind) := by
  constructor
  · intro h hid hmin hmax hlevel hmutation
    have hpq : p.Contains q := ⟨hid, hmin.le, hmax.ge, hlevel.ge, hmutation.ge, Or.inl ⟨hmin, hmax⟩⟩
    have hqp : q.Contains p :=
      ⟨hid.symm, hmin.ge, hmax.le, hlevel.le, hmutation.le, Or.inl ⟨hmin.symm, hmax.symm⟩⟩
    exact (eqv_iff.1 (h.antisymm hpq hqp)).1
  · intro h
    refine ⟨Contains.refl p, Contains.trans, ?_, ?_, Contains.isDisjoint, fun hc hpq => hpq.of_meets hc⟩
    · intro hpq hqp
      obtain ⟨hid, hmin, hmax, hlevel, hmutation, -⟩ := id hpq
      obtain ⟨-, hmin', hmax', hlevel', hmutation', -⟩ := id hqp
      exact hpq.antisymm hqp (h hid (le_antisymm hmin hmin') (le_antisymm hmax' hmax)
        (le_antisymm hlevel' hlevel) (le_antisymm hmutation' hmutation))
    · rintro (hpq | hqp)
      · exact hpq.not_isDisjoint hq
      · exact fun hd => hqp.not_isDisjoint hp hd.symm

/-- A fake drop range over one of two crossing parts. -/
theorem containmentLaws_maxLevel :
    let p := make "all" 0 9 maxLevel 0
    let q := make "all" 0 4 2 0
    let r := make "all" 3 6 1 0
    p.Contains q ∧ q.MeetsWithoutNesting r ∧ ¬ p.IsDisjoint r ∧ (p.Contains r ∨ p.MeetsWithoutNesting r) :=
  have h : (make "all" 0 9 maxLevel 0).Contains (make "all" 0 4 2 0) := by decide
  have hc : (make "all" 0 4 2 0).MeetsWithoutNesting (make "all" 3 6 1 0) := by decide
  have hlaws := (containmentLaws_iff (make "all" 0 9 maxLevel 0) (make "all" 0 4 2 0) (make "all" 3 6 1 0)
    (by decide) (by decide)).2 (fun _ _ _ _ _ => by decide)
  ⟨h, hc, hlaws.crossing hc h⟩

end PartInfo

end MergeTree
