import MergeTree.Proof.WorkingSet

/-!
# Covered Outdated parts

Outdated parts nest, so the walks of `getPartHierarchy` may meet a part that contains the
part they are for. Of the parts strictly contained in a part, those with the same first block
stand before it and the others behind it.

* `takeWhile_toTheLeft`: the walk to the left finds all of the former.
* `takeWhile_toTheRight`: the walk to the right finds all of the latter, unless a part with the
  same first block contains the part: it stands in front of them and ends the walk.
* `getCoveredOutdatedParts_complete_iff`: when exactly the covered Outdated parts are returned.
-/

namespace MergeTree

/-- The parts are disjoint, or one contains the other. -/
def PartInfo.Nested (p q : PartInfo) : Prop := p.IsDisjoint q ∨ p.Contains q ∨ q.Contains p

instance (p q : PartInfo) : Decidable (p.Nested q) := inferInstanceAs (Decidable (_ ∨ _ ∨ _))

namespace PartInfo

variable {p q r : PartInfo}

theorem toTuple_le_iff_of_eq (hk : p.kind = q.kind) (hid : p.partitionId = q.partitionId) : p.toTuple ≤ q.toTuple ↔
    p.minBlock < q.minBlock ∨ (p.minBlock = q.minBlock ∧ (p.maxBlock < q.maxBlock ∨ (p.maxBlock = q.maxBlock ∧
      (p.level < q.level ∨ (p.level = q.level ∧ p.mutation ≤ q.mutation))))) := by
  rw [toTuple_le_iff, hk, hid]
  simp only [lt_irrefl, true_and, false_or]

theorem group_eq_of_between (hqr : q.toTuple ≤ r.toTuple) (hrp : r.toTuple ≤ p.toTuple) (hk : q.kind = p.kind)
    (hid : q.partitionId = p.partitionId) : r.kind = p.kind ∧ r.partitionId = p.partitionId := by
  have hgroup := (span_le hqr).grp_eq (span_le hrp) (by simp only [span, hk, hid])
  simp only [span, toLex_inj, Prod.mk.injEq] at hgroup
  exact ⟨hgroup.1.symm.trans hk, hgroup.2.symm.trans hid⟩

theorem minBlock_eq_of_contains (h : p.Contains q) (hk : p.kind = q.kind) (hle : q.toTuple ≤ p.toTuple) :
    q.minBlock = p.minBlock := by
  rw [toTuple_le_iff_of_eq hk.symm h.1.symm] at hle
  have hmin := h.2.1
  omega

/-- **Between a contained part and the part** there are only contained parts. -/
theorem contains_of_before (hq : q.Proper) (hr : r.Proper) (hp : p.Proper) (h : p.Contains q) (hqr : q.toTuple ≤ r.toTuple)
    (hrp : r.toTuple < p.toTuple) (hnested : p.Nested r) : p.Contains r := by
  have hk := hq.kind_eq hp h.1.symm
  obtain ⟨hrk, hrid⟩ := group_eq_of_between hqr hrp.le hk h.1.symm
  have hmin := minBlock_eq_of_contains h hk.symm (hqr.trans hrp.le)
  rw [toTuple_le_iff_of_eq (hk.trans hrk.symm) (h.1.symm.trans hrid.symm)] at hqr
  rw [← not_le, toTuple_le_iff_of_eq hrk.symm hrid.symm] at hrp
  have hblocks := hr.blocks
  have hblocks' := hp.blocks
  rcases hnested with hdisjoint | hcontains | hcontains
  · rcases hdisjoint with hd | hd | hd
    · exact absurd hrid.symm hd
    · omega
    · omega
  · exact hcontains
  · obtain ⟨-, hmin', hmax', hlevel, hmutation, -⟩ := hcontains
    omega

/-- **Between the part and a contained part** that starts later, a part is contained as well or
starts together with the part and contains it. -/
theorem contains_of_behind (hq : q.Proper) (hr : r.Proper) (hp : p.Proper) (h : p.Contains q) (hpr : p.toTuple ≤ r.toTuple)
    (hrq : r.toTuple ≤ q.toTuple) (hnested : p.Nested r) :
    p.Contains r ∨ (r.Contains p ∧ r.minBlock = p.minBlock) := by
  have hk := hq.kind_eq hp h.1.symm
  obtain ⟨hrk, hrid⟩ := group_eq_of_between hpr hrq hk.symm h.1
  rw [toTuple_le_iff_of_eq hrk hrid] at hrq
  rw [toTuple_le_iff_of_eq (hk.symm.trans hrk.symm) (h.1.trans hrid.symm)] at hpr
  have hblocks := hr.blocks
  have hblocks' := hq.blocks
  obtain ⟨hid, hmin, hmax, -⟩ := h
  rcases hnested with hdisjoint | hcontains | hcontains
  · rcases hdisjoint with hd | hd | hd
    · exact absurd (hid.trans hrid.symm) hd
    · omega
    · omega
  · exact Or.inl hcontains
  · refine Or.inr ⟨hcontains, ?_⟩
    have hmin' := hcontains.2.1
    omega

theorem le_of_contains (h : q.Contains p) (hk : q.kind = p.kind) (hmin : q.minBlock = p.minBlock) :
    p.toTuple ≤ q.toTuple := by
  rw [toTuple_le_iff_of_eq hk.symm h.1.symm]
  obtain ⟨-, -, hmax, hlevel, hmutation, -⟩ := h
  omega

end PartInfo

/-- A walk that stops at the first element without `p` finds all with `p`, when these come first. -/
theorem takeWhile_eq_filter {A : Type} {p : A → Bool} : ∀ {l : List A}, l.Pairwise (fun a b => p b = true → p a = true) →
    l.takeWhile p = l.filter p := by
  intro l
  induction l with
  | nil => exact fun _ => rfl
  | cons a l ih =>
    intro h
    rw [List.pairwise_cons] at h
    by_cases ha : p a = true
    · rw [List.takeWhile_cons_of_pos ha, List.filter_cons_of_pos ha, ih h.2]
    · rw [List.takeWhile_cons_of_neg ha, List.filter_cons_of_neg ha, eq_comm, List.filter_eq_nil_iff]
      exact fun b hb hpb => ha (h.1 b hb hpb)

theorem notMem_takeWhile_of_lt {A K : Type} [Preorder K] {key : A → K} {p : A → Bool} {a b : A} (hab : key a < key b)
    (ha : ¬p a = true) : ∀ {l : List A}, l.Pairwise (fun x y => key x < key y) → a ∈ l → b ∉ l.takeWhile p := by
  intro l
  induction l with
  | nil => exact fun _ ha' => absurd ha' List.not_mem_nil
  | cons c l ih =>
    intro hsorted hmem hb
    rw [List.pairwise_cons] at hsorted
    by_cases hc : p c = true
    · rw [List.takeWhile_cons_of_pos hc] at hb
      rcases List.mem_cons.1 hmem with rfl | hrest
      · exact ha hc
      · rcases List.mem_cons.1 hb with rfl | hb
        · exact lt_asymm hab (hsorted.1 a hrest)
        · exact ih hsorted.2 hrest hb
    · rw [List.takeWhile_cons_of_neg hc] at hb
      exact absurd hb List.not_mem_nil

namespace DataParts

variable {parts : DataParts} {info : PartInfo}

/-- Outdated parts are disjoint or nested, with each other and with the part. -/
structure Laminar (parts : DataParts) (info : PartInfo) : Prop where
  proper : ∀ a ∈ parts, a.info.Proper
  info_proper : info.Proper
  outdated : ∀ a ∈ parts, ∀ b ∈ parts, a.state = .outdated → b.state = .outdated → a.info.Nested b.info
  nested : ∀ a ∈ parts, a.state = .outdated → info.Nested a.info

/-- An Outdated part strictly contained in the part. -/
def OutdatedWithin (parts : DataParts) (info : PartInfo) (a : StatedPart) : Prop :=
  a ∈ parts ∧ a.state = .outdated ∧ info.Contains a.info ∧ ¬a.info.Eqv info

/-- **What keeps the walks from missing a part**: no part with the same first block contains the
part while contained parts start later, and the part is not itself Outdated while contained parts
stand before it. -/
structure NothingHidden (parts : DataParts) (info : PartInfo) : Prop where
  no_covering : ∀ q ∈ parts, q.state = .outdated → q.info.Contains info → ¬q.info.Eqv info →
    q.info.minBlock = info.minBlock → ∀ r, parts.OutdatedWithin info r → r.info.minBlock = info.minBlock
  no_duplicate : ∀ q ∈ parts, q.state = .outdated → q.info.Eqv info → ∀ r, parts.OutdatedWithin info r →
    r.info.minBlock ≠ info.minBlock

theorem sorted_toTheLeft (parts : DataParts) (info : PartInfo) (state : DataPartState) :
    (parts.toTheLeft info state).Pairwise fun a b => b.key < a.key := by
  unfold toTheLeft
  rw [List.pairwise_reverse]
  exact (parts.sorted.sublist (parts.below_sublist _)).filter _

theorem sorted_toTheRight (parts : DataParts) (info : PartInfo) (state : DataPartState) :
    (parts.toTheRight info state).Pairwise fun a b => a.key < b.key :=
  (parts.sorted.sublist (parts.above_sublist _)).filter _

/-- **The walk to the left** finds all contained parts before the part. -/
theorem Laminar.takeWhile_toTheLeft (h : parts.Laminar info) :
    (parts.toTheLeft info .outdated).takeWhile (covered info) = (parts.toTheLeft info .outdated).filter (covered info) := by
  refine takeWhile_eq_filter ((sorted_toTheLeft parts info .outdated).imp_of_mem ?_)
  intro a b ha hb hlt hcovered
  obtain ⟨ha', halt, hastate, -⟩ := mem_toTheLeft.1 ha
  obtain ⟨hb', -, -, -⟩ := mem_toTheLeft.1 hb
  exact decide_eq_true (PartInfo.contains_of_before (h.proper b hb') (h.proper a ha') h.info_proper
    (of_decide_eq_true hcovered) hlt.le halt (h.nested a ha' hastate))

/-- **The walk to the right** finds all contained parts behind the part, when nothing hides them. -/
theorem Laminar.takeWhile_toTheRight (h : parts.Laminar info) (hhidden : NothingHidden parts info) :
    (parts.toTheRight info .outdated).takeWhile (covered info) = (parts.toTheRight info .outdated).filter (covered info) := by
  refine takeWhile_eq_filter ((sorted_toTheRight parts info .outdated).imp_of_mem ?_)
  intro a b ha hb hlt hcovered
  obtain ⟨ha', hale, hastate, -⟩ := mem_toTheRight.1 ha
  obtain ⟨hb', -, hbstate, -⟩ := mem_toTheRight.1 hb
  have hcontains : info.Contains b.info := of_decide_eq_true hcovered
  rcases PartInfo.contains_of_behind (h.proper b hb') (h.proper a ha') h.info_proper hcontains hale hlt.le
    (h.nested a ha' hastate) with hc | ⟨hc, hmin⟩
  · exact decide_eq_true hc
  · by_cases heqv : a.info.Eqv info
    · exact decide_eq_true heqv.symm.contains
    · -- such a part hides `b`, which would have to start with the part and stand before it
      have hne : ¬b.info.Eqv info := by
        intro hb
        have hback : b.key ≤ a.key := (le_of_eq hb).trans hale
        exact absurd hlt hback.not_gt
      have hbmin := hhidden.no_covering a ha' hastate hc heqv hmin b ⟨hb', hbstate, hcontains, hne⟩
      have hkind := (h.proper b hb').kind_eq h.info_proper hcontains.1.symm
      have hback := PartInfo.le_of_contains hcontains hkind.symm hbmin.symm
      exact absurd hlt (hback.trans hale).not_gt

theorem Laminar.kind_eq (h : parts.Laminar info) {a : StatedPart} (ha : a ∈ parts) (hid : a.info.partitionId = info.partitionId) :
    a.info.kind = info.kind :=
  (h.proper a ha).kind_eq h.info_proper hid

theorem OutdatedWithin.mem_left_iff (h : parts.Laminar info) {a : StatedPart} (ha : parts.OutdatedWithin info a) :
    a ∈ parts.toTheLeft info .outdated ↔ a.info.minBlock = info.minBlock := by
  obtain ⟨hmem, hstate, hcontains, hne⟩ := ha
  have hkind := h.kind_eq hmem hcontains.1.symm
  rw [mem_toTheLeft]
  constructor
  · rintro ⟨-, hlt, -⟩
    exact PartInfo.minBlock_eq_of_contains hcontains hkind.symm (le_of_lt hlt)
  · intro hmin
    have hle := PartInfo.le_of_contains hcontains hkind.symm hmin.symm
    exact ⟨hmem, lt_of_le_of_ne hle hne, hstate, hkind⟩

theorem OutdatedWithin.mem_right (h : parts.Laminar info) {a : StatedPart} (ha : parts.OutdatedWithin info a)
    (hmin : a.info.minBlock ≠ info.minBlock) : a ∈ parts.toTheRight info .outdated := by
  have hleft := mt (OutdatedWithin.mem_left_iff h ha).1 hmin
  obtain ⟨hmem, hstate, hcontains, -⟩ := ha
  have hkind := h.kind_eq hmem hcontains.1.symm
  rw [mem_toTheRight]
  rw [mem_toTheLeft] at hleft
  exact ⟨hmem, not_lt.1 fun hlt => hleft ⟨hmem, hlt, hstate, hkind⟩, hstate, hkind⟩

/-- The run of contained parts around the place of the part. -/
def runOf (parts : DataParts) (info : PartInfo) : List StatedPart :=
  ((parts.toTheLeft info .outdated).takeWhile (covered info)).reverse ++
    (parts.toTheRight info .outdated).takeWhile (covered info)

/-- The run without the part itself at its front. -/
def strictRun (parts : DataParts) (info : PartInfo) : List StatedPart :=
  if (parts.runOf info).head?.any fun a => a.info.Eqv info then (parts.runOf info).tail else parts.runOf info

theorem coveredParts_eq (parts : DataParts) (info : PartInfo) :
    (parts.getPartHierarchy info .outdated).coveredParts = (parts.strictRun info).map StatedPart.toDataPart := rfl

theorem mem_runOf {a : StatedPart} (ha : a ∈ parts.runOf info) :
    a ∈ parts ∧ a.state = .outdated ∧ info.Contains a.info := by
  rcases List.mem_append.1 ha with hl | hr
  · have hmem := mem_toTheLeft.1 ((List.takeWhile_sublist _).subset (List.mem_reverse.1 hl))
    have hcovered : covered info a = true := List.mem_takeWhile_imp (List.mem_reverse.1 hl)
    exact ⟨hmem.1, hmem.2.2.1, of_decide_eq_true hcovered⟩
  · have hmem := mem_toTheRight.1 ((List.takeWhile_sublist _).subset hr)
    have hcovered : covered info a = true := List.mem_takeWhile_imp hr
    exact ⟨hmem.1, hmem.2.2.1, of_decide_eq_true hcovered⟩

theorem sorted_runOf (parts : DataParts) (info : PartInfo) : (parts.runOf info).Pairwise fun a b => a.key < b.key := by
  rw [runOf, List.pairwise_append]
  refine ⟨?_, ?_, ?_⟩
  · rw [List.pairwise_reverse]
    exact (sorted_toTheLeft parts info .outdated).sublist (List.takeWhile_sublist _)
  · exact (sorted_toTheRight parts info .outdated).sublist (List.takeWhile_sublist _)
  · intro a ha b hb
    have ha' := mem_toTheLeft.1 ((List.takeWhile_sublist _).subset (List.mem_reverse.1 ha))
    have hb' := mem_toTheRight.1 ((List.takeWhile_sublist _).subset hb)
    exact lt_of_lt_of_le ha'.2.1 hb'.2.1

theorem mem_runOf_of_mem_strictRun {a : StatedPart} (ha : a ∈ parts.strictRun info) : a ∈ parts.runOf info := by
  unfold strictRun at ha
  split at ha
  · exact List.mem_of_mem_tail ha
  · exact ha

theorem mem_strictRun {a : StatedPart} : a ∈ parts.strictRun info ↔
    a ∈ parts.runOf info ∧ ¬(a.info.Eqv info ∧ ∀ b ∈ parts.runOf info, a.key ≤ b.key) := by
  have hsorted := sorted_runOf parts info
  unfold strictRun
  generalize parts.runOf info = run at hsorted ⊢
  cases run with
  | nil => simp
  | cons b rest =>
    rw [List.pairwise_cons] at hsorted
    split
    · next hhead =>
      have heqv : b.info.Eqv info := of_decide_eq_true hhead
      rw [List.tail_cons, List.mem_cons]
      constructor
      · intro ha
        refine ⟨Or.inr ha, fun hfirst => ?_⟩
        exact absurd (hsorted.1 a ha) (hfirst.2 b List.mem_cons_self).not_gt
      · rintro ⟨rfl | ha, hnot⟩
        · refine absurd ⟨heqv, fun c hc => ?_⟩ hnot
          rcases List.mem_cons.1 hc with rfl | hc
          · exact le_refl _
          · exact (hsorted.1 c hc).le
        · exact ha
    · next hhead =>
      refine ⟨fun ha => ⟨ha, ?_⟩, And.left⟩
      rintro ⟨heqv, hfirst⟩
      have hab : a = b := by
        rcases List.mem_cons.1 ha with hab | ha
        · exact hab
        · exact absurd (hsorted.1 a ha) (hfirst b List.mem_cons_self).not_gt
      exact hhead (decide_eq_true (hab ▸ heqv))

/-- **When nothing is hidden**, the run has exactly the contained parts. -/
theorem NothingHidden.mem_strictRun (h : parts.Laminar info) (hhidden : NothingHidden parts info) {a : StatedPart} :
    a ∈ parts.strictRun info ↔ parts.OutdatedWithin info a := by
  rw [DataParts.mem_strictRun]
  constructor
  · rintro ⟨hrun, hnot⟩
    obtain ⟨hmem, hstate, hcontains⟩ := mem_runOf hrun
    refine ⟨hmem, hstate, hcontains, fun heqv => hnot ⟨heqv, fun b hb => ?_⟩⟩
    -- no contained part stands before the part
    obtain ⟨hbmem, hbstate, hbcontains⟩ := mem_runOf hb
    by_contra hlt
    have hblt : b.key < info.toTuple := (not_le.1 hlt).trans_eq heqv
    have hwithin : parts.OutdatedWithin info b := ⟨hbmem, hbstate, hbcontains, ne_of_lt hblt⟩
    have hleft := mem_toTheLeft.2 ⟨hbmem, hblt, hbstate, h.kind_eq hbmem hbcontains.1.symm⟩
    exact hhidden.no_duplicate a hmem hstate heqv b hwithin ((OutdatedWithin.mem_left_iff h hwithin).1 hleft)
  · intro ha
    refine ⟨?_, fun hfirst => ha.2.2.2 hfirst.1⟩
    have hcovered : covered info a = true := decide_eq_true ha.2.2.1
    rw [runOf, h.takeWhile_toTheLeft, h.takeWhile_toTheRight hhidden, List.mem_append, List.mem_reverse]
    by_cases hmin : a.info.minBlock = info.minBlock
    · exact Or.inl (List.mem_filter.2 ⟨(OutdatedWithin.mem_left_iff h ha).2 hmin, hcovered⟩)
    · exact Or.inr (List.mem_filter.2 ⟨OutdatedWithin.mem_right h ha hmin, hcovered⟩)

/-- **Otherwise a part is missed, or the part is among those it covers.** -/
theorem Laminar.nothingHidden (h : parts.Laminar info)
    (hrun : ∀ a, a ∈ parts.strictRun info ↔ parts.OutdatedWithin info a) : NothingHidden parts info := by
  constructor
  · intro q hq hstate hcontains hne hmin r hr
    by_contra hlate
    have hqkind := h.kind_eq hq hcontains.1
    have hqright : q ∈ parts.toTheRight info .outdated :=
      mem_toTheRight.2 ⟨hq, PartInfo.le_of_contains hcontains hqkind hmin, hstate, hqkind⟩
    have hqcovered : ¬covered info q = true := fun hc =>
      hne ((of_decide_eq_true hc : info.Contains q.info).antisymm hcontains hqkind.symm).symm
    have hqr : q.key < r.key := by
      refine PartInfo.toTuple_lt_of_minBlock_lt (h.proper q hq) (h.proper r hr.1) (hcontains.1.trans hr.2.2.1.1) ?_
      have hle := hr.2.2.1.2.1
      omega
    -- `q` stands in front of `r` and ends the walk
    rcases List.mem_append.1 (mem_runOf_of_mem_strictRun ((hrun r).2 hr)) with hl | hright
    · exact hlate ((OutdatedWithin.mem_left_iff h hr).1 ((List.takeWhile_sublist _).subset (List.mem_reverse.1 hl)))
    · exact notMem_takeWhile_of_lt hqr hqcovered (sorted_toTheRight parts info .outdated) hqright hright
  · intro q hq hstate heqv r hr hmin
    have hqrun : q ∈ parts.runOf info := by
      have hkind : q.info.kind = info.kind := (PartInfo.eqv_iff.1 heqv).1
      have hright : q ∈ parts.toTheRight info .outdated := mem_toTheRight.2 ⟨hq, le_of_eq heqv.symm, hstate, hkind⟩
      refine List.mem_append_right _ ?_
      -- nothing behind the place of the part stands before it
      have hsorted := sorted_toTheRight parts info .outdated
      have hle : ∀ b ∈ parts.toTheRight info .outdated, q.key ≤ b.key := fun b hb =>
        (le_of_eq heqv).trans (mem_toTheRight.1 hb).2.1
      generalize parts.toTheRight info .outdated = right at hright hsorted hle ⊢
      cases right with
      | nil => exact absurd hright List.not_mem_nil
      | cons c rest =>
        have hqc : q = c := by
          rcases List.mem_cons.1 hright with hqc | hrest
          · exact hqc
          · exact absurd ((List.pairwise_cons.1 hsorted).1 q hrest) (hle c List.mem_cons_self).not_gt
        have hcovered : covered info c = true := decide_eq_true (hqc ▸ heqv.symm.contains)
        rw [List.takeWhile_cons_of_pos hcovered, hqc]
        exact List.mem_cons_self
    have hstrict : q ∈ parts.strictRun info := by
      rw [DataParts.mem_strictRun]
      refine ⟨hqrun, fun hfirst => ?_⟩
      have hrrun := mem_runOf_of_mem_strictRun ((hrun r).2 hr)
      have hrlt := (mem_toTheLeft.1 ((OutdatedWithin.mem_left_iff h hr).2 hmin)).2.1
      exact absurd hrlt ((le_of_eq heqv.symm).trans (hfirst.2 r hrrun)).not_gt
    exact ((hrun q).1 hstrict).2.2.2 heqv

/-! ## What a commit locks -/

variable {part : DataPart}

/-- The states of the parts that `getCoveredOutdatedParts` is for. -/
def Asserted (parts : DataParts) (part : DataPart) : Prop :=
  parts.stateOf part = .active ∨ parts.stateOf part = .preActive ∨ parts.stateOf part = .outdated

theorem getCoveredOutdatedParts_eq_ok (hstate : parts.Asserted part) :
    parts.getCoveredOutdatedParts part = .ok ((parts.strictRun part.info).map StatedPart.toDataPart) := by
  have hduplicate : ¬((parts.getPartHierarchy part.info .outdated).duplicatePart.isSome = true ∧
      parts.stateOf part ≠ .outdated) := by
    rintro ⟨hsome, hother⟩
    simp only [getPartHierarchy, Option.isSome_map, List.find?_isSome] at hsome
    obtain ⟨a, ha, heqv⟩ := hsome
    have hmem : a ∈ parts ∧ a.state = .outdated := by
      rcases List.mem_append.1 ha with hrun | hend
      · have hright := mem_toTheRight.1 ((List.takeWhile_sublist _).subset hrun)
        exact ⟨hright.1, hright.2.2.1⟩
      · have hright := mem_toTheRight.1 (mem_of_walkEnd (Option.mem_toList.1 hend)).1
        exact ⟨hright.1, hright.2.2.1⟩
    have hkey : a.toDataPart.key = part.key := of_decide_eq_true heqv
    have hfind : parts.find part.key = some a := KeyedSet.find_eq_some.2 ⟨hmem.1, hkey⟩
    have hstateOf : parts.stateOf part = .outdated ∨ parts.stateOf part = .temporary := by
      rw [stateOf, hfind]
      by_cases heq : a.toDataPart = part
      · exact Or.inl ((if_pos heq).trans hmem.2)
      · exact Or.inr (if_neg heq)
    rcases hstateOf with h | h
    · exact hother h
    · rcases hstate with h' | h' | h' <;> rw [h] at h' <;> cases h'
  unfold getCoveredOutdatedParts
  refine (if_neg (not_not.2 hstate)).trans ?_
  exact (if_neg hduplicate).trans (congrArg Except.ok (coveredParts_eq parts part.info))

/-- `getCoveredOutdatedParts` returns the Outdated parts strictly contained in the part. -/
def FindsCovered (parts : DataParts) (part : DataPart) : Prop :=
  ∃ covered, parts.getCoveredOutdatedParts part = .ok covered ∧
    ∀ q, q ∈ covered ↔ ∃ a, parts.OutdatedWithin part.info a ∧ a.toDataPart = q

/-- A commit in a transaction locks all visible Outdated parts that the part replaces. -/
def CommitLocks (parts : DataParts) (part : DataPart) : Prop :=
  ∀ (refuses : DataPart → List DataPart → Bool) (visible : DataPart → Bool) (precommittedParts : List DataPart)
    (covered : List (List DataPart)),
    MergeTreeData.coveredPartsForCommit parts true refuses visible precommittedParts = .ok covered →
    ∀ i : ℕ, precommittedParts[i]? = some part → ∃ coveredParts, covered[i]? = some coveredParts ∧
      ∀ a, parts.OutdatedWithin part.info a → visible a.toDataPart = true → a.toDataPart ∈ coveredParts

theorem findsCovered_iff (h : parts.Laminar part.info) (hstate : parts.Asserted part) :
    parts.FindsCovered part ↔ NothingHidden parts part.info := by
  have hok := getCoveredOutdatedParts_eq_ok hstate
  constructor
  · rintro ⟨covered, hcovered, hiff⟩
    rw [hok] at hcovered
    obtain rfl := Except.ok.inj hcovered
    refine h.nothingHidden fun a => ?_
    -- a part of the set is known by its key
    constructor
    · intro ha
      obtain ⟨b, hb, heq⟩ := (hiff a.toDataPart).1 (List.mem_map_of_mem ha)
      have hab := eq_of_key hb.1 (mem_runOf (mem_runOf_of_mem_strictRun ha)).1 (congrArg DataPart.key heq)
      exact hab ▸ hb
    · intro ha
      obtain ⟨b, hb, heq⟩ := List.mem_map.1 ((hiff a.toDataPart).2 ⟨a, ha, rfl⟩)
      have hab := eq_of_key (mem_runOf (mem_runOf_of_mem_strictRun hb)).1 ha.1 (congrArg DataPart.key heq)
      exact hab ▸ hb
  · intro hhidden
    refine ⟨_, hok, fun q => ?_⟩
    rw [List.mem_map]
    constructor
    · rintro ⟨a, ha, rfl⟩
      exact ⟨a, (hhidden.mem_strictRun h).1 ha, rfl⟩
    · rintro ⟨a, ha, rfl⟩
      exact ⟨a, (hhidden.mem_strictRun h).2 ha, rfl⟩

theorem FindsCovered.commitLocks (h : parts.FindsCovered part) : parts.CommitLocks part := by
  obtain ⟨found, hfound, hiff⟩ := h
  intro refuses visible precommittedParts
  induction precommittedParts with
  | nil =>
    intro covered _ i hi
    cases hi
  | cons p rest ih =>
    intro covered hok i hi
    obtain ⟨coveringPart, coveredActive, outdated, coveredRest, -, houtdated, hrest, rfl⟩ := coveredPartsForCommit_cons hok
    cases i with
    | zero =>
      obtain rfl : p = part := Option.some.inj hi
      rw [if_pos rfl, hfound] at houtdated
      obtain rfl := Except.ok.inj houtdated
      refine ⟨_, rfl, fun a ha hvisible => ?_⟩
      exact List.mem_append_right _ (List.mem_filter.2 ⟨(hiff a.toDataPart).2 ⟨a, ha, rfl⟩, hvisible⟩)
    | succ i => exact ih coveredRest hrest i hi

/-- **The covered Outdated parts are found and locked, unless they are hidden**: by an Outdated part
with the same first block that contains the part, or by the part itself being Outdated. -/
theorem getCoveredOutdatedParts_complete_iff (parts : DataParts) (part : DataPart) (h : parts.Laminar part.info)
    (hstate : parts.Asserted part) :
    (parts.FindsCovered part ∧ parts.CommitLocks part) ↔ NothingHidden parts part.info := by
  rw [← findsCovered_iff h hstate]
  exact ⟨And.left, fun hfinds => ⟨hfinds, hfinds.commitLocks⟩⟩

/-- A merged part without mutation, PreActive, and Outdated parts: its mutation and a part below. -/
def mutated : DataParts where
  toList := [{ info := { partitionId := "all", minBlock := 1, maxBlock := 3, level := 1 }, state := .preActive },
    { info := { partitionId := "all", minBlock := 1, maxBlock := 3, level := 1, mutation := 5 }, state := .outdated },
    { info := { partitionId := "all", minBlock := 2, maxBlock := 2 }, state := .outdated }]
  sorted := by decide

/-- The merged part. -/
def merged : DataPart := { info := { partitionId := "all", minBlock := 1, maxBlock := 3, level := 1 } }

theorem laminar_mutated : mutated.Laminar merged.info :=
  ⟨by decide +kernel, by decide +kernel, by decide +kernel, by decide +kernel⟩

/-- Outdated parts on both sides of a merged part: nested ones, and one that it does not contain. -/
def nestedOutdated : DataParts where
  toList := [{ info := { partitionId := "all", minBlock := 1, maxBlock := 1 }, state := .outdated },
    { info := { partitionId := "all", minBlock := 1, maxBlock := 2, level := 1 }, state := .outdated },
    { info := { partitionId := "all", minBlock := 1, maxBlock := 3, level := 2 }, state := .active },
    { info := { partitionId := "all", minBlock := 2, maxBlock := 2 }, state := .outdated },
    { info := { partitionId := "all", minBlock := 3, maxBlock := 3 }, state := .outdated },
    { info := { partitionId := "all", minBlock := 4, maxBlock := 4 }, state := .outdated }]
  sorted := by decide

/-- The four parts that it contains are found and locked. -/
theorem getCoveredOutdatedParts_nestedOutdated : ∃ part, (nestedOutdated.getCoveredOutdatedParts part).map List.length = .ok 4 ∧
    nestedOutdated.FindsCovered part ∧ nestedOutdated.CommitLocks part := by
  refine ⟨{ info := { partitionId := "all", minBlock := 1, maxBlock := 3, level := 2 } }, by decide +kernel, ?_⟩
  refine (getCoveredOutdatedParts_complete_iff nestedOutdated _ ⟨?_, ?_, ?_, ?_⟩ (Or.inl ?_)).2 ⟨?_, ?_⟩
  · decide +kernel
  · decide +kernel
  · decide +kernel
  · decide +kernel
  · decide +kernel
  · intro q hq hstate hcontains
    exact absurd hcontains ((by decide +kernel : ∀ a ∈ nestedOutdated, a.state = .outdated → ¬a.info.Contains _) q hq hstate)
  · intro q hq hstate heqv
    exact absurd heqv ((by decide +kernel : ∀ a ∈ nestedOutdated, a.state = .outdated → ¬a.info.Eqv _) q hq hstate)

/-- The mutation contains the merged part and ends the walk in front of the part below. -/
theorem not_findsCovered_mutated : mutated.Laminar merged.info ∧ mutated.Asserted merged ∧ ¬mutated.FindsCovered merged := by
  refine ⟨laminar_mutated, Or.inr (Or.inl (by decide +kernel)), ?_⟩
  rintro ⟨covered, hcovered, hiff⟩
  have hempty : mutated.getCoveredOutdatedParts merged = .ok [] := by decide +kernel
  rw [hempty] at hcovered
  obtain rfl := Except.ok.inj hcovered
  have hbelow : mutated.OutdatedWithin merged.info
      { info := { partitionId := "all", minBlock := 2, maxBlock := 2 }, state := .outdated } :=
    ⟨by change _ ∈ mutated.toList; decide +kernel, rfl, by decide +kernel, by decide +kernel⟩
  exact absurd ((hiff _).2 ⟨_, hbelow, rfl⟩) List.not_mem_nil

end DataParts

end MergeTree
