import MergeTree.Proof.PartInfo
import MergeTree.Spec.ActiveDataPartSet

/-!
# Adding to a set of disjoint parts

The parts of a set of pairwise disjoint parts that meet a given part `p` stand next
to the place of `p` in the map (`isDisjoint_left`, `isDisjoint_right`). So the two
neighbours decide whether a part is covered (`getContainingPartImpl_eq_some`), and the
walks of `addImpl` see every part that meets `p` before they stop (`addImpl_ok`).
-/

namespace MergeTree

theorem tryParsePartName_proper [IntText] {name : String} {v : ℕ} {p : PartInfo}
    (h : tryParsePartName name v = some p) : p.Proper := by
  unfold tryParsePartName at h
  simp only [Option.bind_eq_bind, Option.bind_eq_some_iff] at h
  obtain ⟨⟨partitionId, i0⟩, -, h⟩ := h
  split at h
  · cases h
  obtain ⟨⟨minBlock, i1⟩, -, i2, -, ⟨maxBlock, i3⟩, -, i4, -, ⟨level, i5⟩, -, h⟩ := by
    simpa only [Option.bind_eq_some_iff] using h
  split at h
  · cases h
  rename_i hle
  obtain ⟨mutation, -, h⟩ := by simpa only [Option.bind_eq_some_iff] using h
  cases h
  exact ⟨rfl, by simpa using hle⟩

theorem fromPartName_eq_ok [IntText] {name : String} {v : ℕ} {p : PartInfo} :
    fromPartName name v = .ok p ↔ tryParsePartName name v = some p := by
  unfold fromPartName
  cases tryParsePartName name v <;> simp

theorem fromPartName_proper [IntText] {name : String} {v : ℕ} {p : PartInfo}
    (h : fromPartName name v = .ok p) : p.Proper :=
  tryParsePartName_proper (fromPartName_eq_ok.1 h)

namespace ActiveDataPartSet

variable {S T : ActiveDataPartSet} {p : PartInfo} {e f : Entry}

/-- **A set of proper, pairwise disjoint parts.** -/
structure Laid (S : ActiveDataPartSet) : Prop where
  proper : ∀ e ∈ S, e.1.Proper
  disjoint : ∀ e ∈ S, ∀ f ∈ S, e ≠ f → e.1.IsDisjoint f.1

theorem Laid.subset (h : S.Laid) (hT : ∀ e ∈ T, e ∈ S) : T.Laid :=
  ⟨fun e he => h.proper e (hT e he), fun e he f hf hef => h.disjoint e (hT e he) f (hT f hf) hef⟩

theorem Laid.eq_of_meet (h : S.Laid) (he : e ∈ S) (hf : f ∈ S) (hm : ¬ e.1.IsDisjoint f.1) : e = f := by
  by_contra hef
  exact hm (h.disjoint e he f hf hef)

theorem mem_toTheLeft : e ∈ S.toTheLeft p ↔ e ∈ S ∧ e.1.toTuple < p.toTuple := by
  unfold toTheLeft
  rw [List.mem_reverse, KeyedSet.mem_below]
  rfl

theorem mem_toTheRight : e ∈ S.toTheRight p ↔ e ∈ S ∧ p.toTuple ≤ e.1.toTuple := by
  unfold toTheRight
  rw [KeyedSet.mem_above]
  rfl

theorem mem_left_or_right (h : e ∈ S) : e ∈ S.toTheLeft p ∨ e ∈ S.toTheRight p := by
  rw [mem_toTheLeft, mem_toTheRight]
  rcases lt_or_ge e.1.toTuple p.toTuple with hlt | hle
  · exact Or.inl ⟨h, hlt⟩
  · exact Or.inr ⟨h, hle⟩

theorem toTheLeft_sorted (S : ActiveDataPartSet) (p : PartInfo) :
    (S.toTheLeft p).Pairwise (fun a b => b.1.toTuple < a.1.toTuple) := by
  unfold toTheLeft
  rw [List.pairwise_reverse]
  exact S.partInfoToName.sorted.sublist (S.partInfoToName.below_sublist _)

theorem toTheRight_sorted (S : ActiveDataPartSet) (p : PartInfo) :
    (S.toTheRight p).Pairwise (fun a b => a.1.toTuple < b.1.toTuple) :=
  S.partInfoToName.sorted.sublist (S.partInfoToName.above_sublist _)

theorem ne_of_toTuple_lt (h : e.1.toTuple < f.1.toTuple) : e ≠ f := by
  rintro rfl
  exact lt_irrefl _ h

/-! ## The neighbours of a part -/

theorem isDisjoint_left (hS : S.Laid) (hp : p.Proper) {x : Entry} {xs : List Entry}
    (hL : S.toTheLeft p = x :: xs) (he : e ∈ xs) : e.1.IsDisjoint p := by
  have hsort := S.toTheLeft_sorted p
  rw [hL, List.pairwise_cons] at hsort
  have hx := mem_toTheLeft.1 (hL ▸ List.mem_cons_self : x ∈ S.toTheLeft p)
  have he' := mem_toTheLeft.1 (hL ▸ List.mem_cons_of_mem x he : e ∈ S.toTheLeft p)
  have hex := hsort.1 e he
  exact PartInfo.isDisjoint_of_before (hS.proper e he'.1) (hS.proper x hx.1) hp hex.le hx.2.le
    (hS.disjoint e he'.1 x hx.1 (ne_of_toTuple_lt hex))

theorem isDisjoint_right (hS : S.Laid) (hp : p.Proper) {x : Entry} {l xs : List Entry}
    (hR : S.toTheRight p = l ++ x :: xs) (hx : x.1.IsDisjoint p) (he : e ∈ xs) : e.1.IsDisjoint p := by
  have hsort := S.toTheRight_sorted p
  rw [hR, List.pairwise_append, List.pairwise_cons] at hsort
  have hxR := mem_toTheRight.1 (hR ▸ by simp : x ∈ S.toTheRight p)
  have heR := mem_toTheRight.1 (hR ▸ by simp [he] : e ∈ S.toTheRight p)
  exact PartInfo.isDisjoint_of_after (hS.proper x hxR.1) (hS.proper e heR.1) hp hxR.2
    (hsort.2.1.1 e he).le hx

theorem not_isDisjoint_of_meets (hf : f.1.Contains p) (he : ¬ e.1.IsDisjoint p) : ¬ e.1.IsDisjoint f.1 :=
  fun hd => he (hf.isDisjoint hd.symm).symm

/-- **The neighbours decide.** In a laid set, the entry that contains `p` is the one
`getContainingPartImpl` looks at. -/
theorem getContainingPartImpl_of_contains (hS : S.Laid) (hp : p.Proper) (hf : f ∈ S)
    (hc : f.1.Contains p) : S.getContainingPartImpl p = some f := by
  have hmeet : ¬ f.1.IsDisjoint p := hc.not_isDisjoint hp.blocks
  unfold getContainingPartImpl
  rcases mem_left_or_right (p := p) hf with hL | hR
  · -- the next entry is another one, so it does not contain `p`
    have hright : ((S.toTheRight p).head?.filter fun e => e.1.Contains p) = none := by
      rw [Option.filter_eq_none_iff]
      intro x hx hxc
      have hxR := mem_toTheRight.1 (List.mem_of_mem_head? hx)
      have hxf := hS.eq_of_meet hxR.1 hf
        (PartInfo.not_isDisjoint_of_contains (by simpa using hxc) hc hp.blocks)
      rw [hxf] at hxR
      exact absurd (mem_toTheLeft.1 hL).2 hxR.2.not_gt
    rw [hright, Option.none_or]
    cases hcase : S.toTheLeft p with
    | nil => rw [hcase] at hL; cases hL
    | cons x xs =>
      rw [hcase] at hL
      rcases List.mem_cons.1 hL with rfl | hxs
      · simp [hc]
      · exact absurd (isDisjoint_left hS hp hcase hxs) hmeet
  · cases hcase : S.toTheRight p with
    | nil => rw [hcase] at hR; cases hR
    | cons x xs =>
      have hxS := (mem_toTheRight.1 (hcase ▸ List.mem_cons_self : x ∈ S.toTheRight p)).1
      rw [hcase] at hR
      rcases List.mem_cons.1 hR with rfl | hxs
      · simp [hc]
      · have hx : ¬ x.1.IsDisjoint p := fun hd =>
          hmeet (isDisjoint_right (l := []) hS hp hcase hd hxs)
        have hxf := hS.eq_of_meet hxS hf (not_isDisjoint_of_meets hc hx)
        subst hxf
        simp [hc]

theorem getContainingPartImpl_mem (h : S.getContainingPartImpl p = some f) :
    f ∈ S ∧ f.1.Contains p := by
  unfold getContainingPartImpl at h
  rw [Option.or_eq_some_iff] at h
  rcases h with h | ⟨-, h⟩
  · obtain ⟨hm, hc⟩ := Option.filter_eq_some_iff.1 h
    exact ⟨(mem_toTheRight.1 (List.mem_of_mem_head? hm)).1, by simpa using hc⟩
  · obtain ⟨hm, hc⟩ := Option.filter_eq_some_iff.1 h
    exact ⟨(mem_toTheLeft.1 (List.mem_of_mem_head? hm)).1, by simpa using hc⟩

/-- `getContainingPartImpl` finds a stored part containing `p` exactly when there is one. -/
theorem getContainingPartImpl_eq_some (hS : S.Laid) (hp : p.Proper) :
    S.getContainingPartImpl p = some f ↔ f ∈ S ∧ f.1.Contains p :=
  ⟨getContainingPartImpl_mem, fun h => getContainingPartImpl_of_contains hS hp h.1 h.2⟩

theorem getContainingPartImpl_eq_none (hS : S.Laid) (hp : p.Proper) :
    S.getContainingPartImpl p = none ↔ ∀ f ∈ S, ¬ f.1.Contains p := by
  rw [Option.eq_none_iff_forall_ne_some]
  constructor
  · intro h f hf hc
    exact h f (getContainingPartImpl_of_contains hS hp hf hc)
  · intro h f hf
    have := getContainingPartImpl_mem hf
    exact h f this.1 this.2

/-! ## The walks -/

theorem mem_of_intersecting {l : List Entry} (h : intersecting p l = some e) :
    e ∈ l ∧ ¬ p.Contains e.1 ∧ ¬ p.IsDisjoint e.1 := by
  unfold intersecting at h
  obtain ⟨hm, hd⟩ := Option.filter_eq_some_iff.1 h
  have hmem := List.mem_of_mem_head? hm
  refine ⟨(List.dropWhile_suffix _).subset hmem, ?_, by simpa using hd⟩
  have hnot := List.head?_dropWhile_not (covers p) l
  rw [Option.mem_def.1 hm] at hnot
  simpa [covers] using hnot

theorem left_clear (hS : S.Laid) (hp : p.Proper) (h : intersecting p (S.toTheLeft p) = none) :
    ∀ e ∈ (S.toTheLeft p).dropWhile (covers p), p.IsDisjoint e.1 := by
  intro e he
  unfold intersecting at h
  cases hcase : S.toTheLeft p with
  | nil => rw [hcase] at he; cases he
  | cons x xs =>
    rw [hcase] at h he
    rw [List.dropWhile_cons] at h he
    split at he
    · exact (isDisjoint_left hS hp hcase ((List.dropWhile_suffix _).subset he)).symm
    · rename_i hx
      rw [if_neg hx] at h
      rcases List.mem_cons.1 he with rfl | hxs
      · simpa using h
      · exact (isDisjoint_left hS hp hcase hxs).symm

theorem right_clear (hS : S.Laid) (hp : p.Proper) (h : intersecting p (S.toTheRight p) = none) :
    ∀ e ∈ (S.toTheRight p).dropWhile (covers p), p.IsDisjoint e.1 := by
  intro e he
  unfold intersecting at h
  have hsplit := List.takeWhile_append_dropWhile (p := covers p) (l := S.toTheRight p)
  cases hcase : (S.toTheRight p).dropWhile (covers p) with
  | nil => rw [hcase] at he; cases he
  | cons x xs =>
    rw [hcase] at h he hsplit
    have hx : p.IsDisjoint x.1 := by simpa using h
    rcases List.mem_cons.1 he with rfl | hxs
    · exact hx
    · exact (isDisjoint_right hS hp hsplit.symm hx.symm hxs).symm

/-- A run of covered entries that ends among uncovered ones is all of the covered ones. -/
theorem run_eq_filter {l : List Entry} (h : ∀ e ∈ l.dropWhile (covers p), covers p e = false) :
    l.takeWhile (covers p) = l.filter (covers p) ∧
      l.dropWhile (covers p) = l.filter (fun e => !covers p e) := by
  have htake : ∀ e ∈ l.takeWhile (covers p), covers p e = true := fun e he => List.mem_takeWhile_imp he
  have hsplit := List.takeWhile_append_dropWhile (p := covers p) (l := l)
  constructor
  · conv_rhs => rw [← hsplit]
    rw [List.filter_append, List.filter_eq_self.2 htake, List.filter_eq_nil_iff.2, List.append_nil]
    intro e he
    rw [h e he]
    exact Bool.false_ne_true
  · conv_rhs => rw [← hsplit]
    rw [List.filter_append, List.filter_eq_nil_iff.2, List.nil_append, List.filter_eq_self.2]
    · intro e he
      rw [h e he, Bool.not_false]
    · intro e he
      rw [htake e he]
      exact Bool.false_ne_true

theorem covers_eq_false (hp : e.1.Proper) (h : p.IsDisjoint e.1) : covers p e = false := by
  unfold covers
  rw [decide_eq_false_iff_not]
  exact fun hc => hc.not_isDisjoint hp.blocks h

theorem toList_afterWalks (S : ActiveDataPartSet) (p : PartInfo) :
    ((S.partInfoToName.eraseBefore p.toTuple (covers p)).eraseAfter p.toTuple (covers p)).toList =
      ((S.toTheLeft p).dropWhile (covers p)).reverse ++ (S.toTheRight p).dropWhile (covers p) := by
  rw [← KeyedSet.below_append_above _ p.toTuple, KeyedSet.below_eraseAfter, KeyedSet.above_eraseAfter,
    KeyedSet.below_eraseBefore, KeyedSet.above_eraseBefore]
  rfl

theorem mem_of_mem_afterWalks
    (h : e ∈ (S.partInfoToName.eraseBefore p.toTuple (covers p)).eraseAfter p.toTuple (covers p)) :
    e ∈ S :=
  KeyedSet.mem_of_mem_eraseBefore (KeyedSet.mem_of_mem_eraseAfter h)

theorem mem_afterWalks (hS : S.Laid) (hp : p.Proper) (hl : intersecting p (S.toTheLeft p) = none)
    (hr : intersecting p (S.toTheRight p) = none) :
    e ∈ (S.partInfoToName.eraseBefore p.toTuple (covers p)).eraseAfter p.toTuple (covers p) ↔
      e ∈ S ∧ ¬ p.Contains e.1 := by
  have hL := (run_eq_filter fun e he => covers_eq_false
    (hS.proper e (mem_toTheLeft.1 ((List.dropWhile_suffix _).subset he)).1) (left_clear hS hp hl e he)).2
  have hR := (run_eq_filter fun e he => covers_eq_false
    (hS.proper e (mem_toTheRight.1 ((List.dropWhile_suffix _).subset he)).1) (right_clear hS hp hr e he)).2
  have hcov : (!covers p e) = true ↔ ¬ p.Contains e.1 := by simp [covers]
  rw [KeyedSet.mem_def, toList_afterWalks, List.mem_append, List.mem_reverse, hL, hR, List.mem_filter,
    List.mem_filter, hcov, mem_toTheLeft, mem_toTheRight]
  have := lt_or_ge e.1.toTuple p.toTuple
  tauto

theorem Laid.remove (hS : S.Laid) (p : PartInfo) : (S.remove p).1.Laid :=
  hS.subset fun _ he => (KeyedSet.mem_erase.1 he).1

theorem Laid.empty (v : ℕ) : ({ formatVersion := v } : ActiveDataPartSet).Laid :=
  ⟨fun _ he => absurd he (KeyedSet.notMem_empty _), fun _ he => absurd he (KeyedSet.notMem_empty _)⟩

/-! ## `addImpl` -/

variable [IntText] {name : String}

/-- What `addImpl` can do: refuse a covered part, stop at an obstacle on the left, stop
at an obstacle on the right, or put the part in the place of what it covers. -/
theorem addImpl_cases (S : ActiveDataPartSet) (p : PartInfo) (name : String) :
    ((S.getContainingPartImpl p).isSome ∧ S.addImpl p name = { set := S, outcome := .hasCovering }) ∨
    (S.getContainingPartImpl p = none ∧ ∃ e, intersecting p (S.toTheLeft p) = some e ∧
      (S.addImpl p name).outcome = .hasIntersectingPart ∧
      (S.addImpl p name).set.partInfoToName = S.partInfoToName.eraseBefore p.toTuple (covers p)) ∨
    (S.getContainingPartImpl p = none ∧ intersecting p (S.toTheLeft p) = none ∧
      ∃ e, intersecting p (S.toTheRight p) = some e ∧
      (S.addImpl p name).outcome = .hasIntersectingPart ∧
      (S.addImpl p name).set.partInfoToName =
        (S.partInfoToName.eraseBefore p.toTuple (covers p)).eraseAfter p.toTuple (covers p)) ∨
    (S.getContainingPartImpl p = none ∧ intersecting p (S.toTheLeft p) = none ∧
      intersecting p (S.toTheRight p) = none ∧
      (S.addImpl p name).outcome = .added ∧
      (S.addImpl p name).set.partInfoToName =
        ((S.partInfoToName.eraseBefore p.toTuple (covers p)).eraseAfter p.toTuple (covers p)).emplace
          (p, name) ∧
      (S.addImpl p name).replacedParts =
        (((S.toTheLeft p).takeWhile (covers p)).reverse ++ (S.toTheRight p).takeWhile (covers p)).map
          Prod.snd) := by
  unfold addImpl
  cases hc : S.getContainingPartImpl p with
  | some f => simp
  | none =>
    cases hl : intersecting p (S.toTheLeft p) with
    | some e => simp [hl]
    | none =>
      cases hr : intersecting p (S.toTheRight p) with
      | some e => simp [hl, hr]
      | none => simp [hl, hr]

/-- **What `addImpl` promises** for the part `p` on the set `S`. -/
structure AddOk (S : ActiveDataPartSet) (p : PartInfo) (name : String) (r : AddResult) : Prop where
  hasCovering : r.outcome = .hasCovering ↔ ∃ e ∈ S, e.1.Contains p
  hasIntersectingPart : r.outcome = .hasIntersectingPart ↔
    (¬ ∃ e ∈ S, e.1.Contains p) ∧ ∃ e ∈ S, ¬ p.IsDisjoint e.1 ∧ ¬ p.Contains e.1
  added : r.outcome = .added ↔
    (¬ ∃ e ∈ S, e.1.Contains p) ∧ ∀ e ∈ S, p.IsDisjoint e.1 ∨ p.Contains e.1
  mem_set : r.outcome = .added → ∀ e, e ∈ r.set ↔ (e ∈ S ∧ ¬ p.Contains e.1) ∨ e = (p, name)
  replacedParts : r.outcome = .added →
    r.replacedParts = (S.partInfoToName.toList.filter (covers p)).map Prod.snd
  refused : r.outcome ≠ .added → ∀ e ∈ r.set, e ∈ S

theorem addImpl_formatVersion (S : ActiveDataPartSet) (p : PartInfo) (name : String) :
    (S.addImpl p name).set.formatVersion = S.formatVersion := by
  unfold addImpl
  split
  · rfl
  · simp only
    split
    · rfl
    · split <;> rfl

theorem addImpl_set_of_hasCovering {name : String} (ho : (S.addImpl p name).outcome = .hasCovering) :
    (S.addImpl p name).set = S := by
  rcases addImpl_cases S p name with ⟨-, hr⟩ | ⟨-, e, -, ho', -⟩ | ⟨-, -, e, -, ho', -⟩ |
      ⟨-, -, -, ho', -⟩
  · rw [hr]
  · rw [ho] at ho'; cases ho'
  · rw [ho] at ho'; cases ho'
  · rw [ho] at ho'; cases ho'

/-- **`addImpl` on a set of disjoint parts.** -/
theorem addImpl_ok (hS : S.Laid) (hp : p.Proper) (name : String) :
    AddOk S p name (S.addImpl p name) := by
  have hnone : S.getContainingPartImpl p = none → ¬ ∃ e ∈ S, e.1.Contains p := by
    rintro hn ⟨e, he, hc⟩
    exact (getContainingPartImpl_eq_none hS hp).1 hn e he hc
  rcases addImpl_cases S p name with ⟨hc, hr⟩ | ⟨hn, e, hi, ho, hset⟩ | ⟨hn, hl, e, hi, ho, hset⟩ |
      ⟨hn, hl, hr, ho, hset, hrep⟩
  · obtain ⟨f, hf⟩ := Option.isSome_iff_exists.1 hc
    have hcov : ∃ e ∈ S, e.1.Contains p := ⟨f, getContainingPartImpl_mem hf⟩
    rw [hr]
    exact ⟨by simp [hcov], by simp [hcov], by simp [hcov], by simp, by simp, fun _ e he => he⟩
  · -- the obstacle is on the left
    obtain ⟨hm, hnc, hnd⟩ := mem_of_intersecting hi
    have hobst : ∃ e ∈ S, ¬ p.IsDisjoint e.1 ∧ ¬ p.Contains e.1 := ⟨e, (mem_toTheLeft.1 hm).1, hnd, hnc⟩
    refine ⟨by simp [ho, hnone hn], by simp [ho, hnone hn, hobst], ?_, by simp [ho], by simp [ho], ?_⟩
    · obtain ⟨g, hg, hg1, hg2⟩ := hobst
      simp only [ho, reduceCtorEq, false_iff, not_and, not_forall]
      exact fun _ => ⟨g, hg, by tauto⟩
    · intro _ g hg
      rw [mem_def, hset] at hg
      exact KeyedSet.mem_of_mem_eraseBefore hg
  · -- the obstacle is on the right
    obtain ⟨hm, hnc, hnd⟩ := mem_of_intersecting hi
    have hobst : ∃ e ∈ S, ¬ p.IsDisjoint e.1 ∧ ¬ p.Contains e.1 := ⟨e, (mem_toTheRight.1 hm).1, hnd, hnc⟩
    refine ⟨by simp [ho, hnone hn], by simp [ho, hnone hn, hobst], ?_, by simp [ho], by simp [ho], ?_⟩
    · obtain ⟨g, hg, hg1, hg2⟩ := hobst
      simp only [ho, reduceCtorEq, false_iff, not_and, not_forall]
      exact fun _ => ⟨g, hg, by tauto⟩
    · intro _ g hg
      rw [mem_def, hset] at hg
      exact mem_of_mem_afterWalks hg
  · -- no obstacle
    have hclear : ∀ e ∈ S, p.IsDisjoint e.1 ∨ p.Contains e.1 := by
      intro g hg
      by_contra hcon
      push Not at hcon
      have hkept := (mem_afterWalks hS hp hl hr).2 ⟨hg, hcon.2⟩
      rw [KeyedSet.mem_def, toList_afterWalks, List.mem_append, List.mem_reverse] at hkept
      rcases hkept with hk | hk
      · exact hcon.1 (left_clear hS hp hl g hk)
      · exact hcon.1 (right_clear hS hp hr g hk)
    have hfresh : ∀ c ∈ (S.partInfoToName.eraseBefore p.toTuple (covers p)).eraseAfter p.toTuple (covers p),
        entryKey c ≠ p.toTuple := by
      intro c hc hk
      exact hnone hn ⟨c, mem_of_mem_afterWalks hc, PartInfo.Eqv.contains hk⟩
    refine ⟨by simp [ho, hnone hn], ?_, by simp [ho, hnone hn]; exact fun a b hab => hclear _ hab, ?_, ?_, by simp [ho]⟩
    · simp only [ho, reduceCtorEq, false_iff, not_and, not_exists]
      intro _ g hg hd hnc
      rcases hclear g hg with h | h
      · exact hd h
      · exact hnc h
    · intro _ g
      rw [mem_def, hset, KeyedSet.mem_emplace, mem_afterWalks hS hp hl hr]
      simp only [entryKey]
      have := hfresh
      simp only [entryKey] at this
      tauto
    · intro _
      rw [hrep]
      have hL := (run_eq_filter fun e he => covers_eq_false
        (hS.proper e (mem_toTheLeft.1 ((List.dropWhile_suffix _).subset he)).1) (left_clear hS hp hl e he)).1
      have hR := (run_eq_filter fun e he => covers_eq_false
        (hS.proper e (mem_toTheRight.1 ((List.dropWhile_suffix _).subset he)).1) (right_clear hS hp hr e he)).1
      rw [hL, hR, ← S.partInfoToName.below_append_above p.toTuple, List.filter_append, toTheLeft,
        List.filter_reverse, List.reverse_reverse]
      rfl

theorem Laid.addImpl (hS : S.Laid) (hp : p.Proper) (name : String) : (S.addImpl p name).set.Laid := by
  have hok := addImpl_ok hS hp name
  by_cases ho : (S.addImpl p name).outcome = .added
  · have hclear := (hok.added.1 ho).2
    have hmem := hok.mem_set ho
    constructor
    · intro e he
      rcases (hmem e).1 he with ⟨heS, -⟩ | rfl
      · exact hS.proper e heS
      · exact hp
    · intro e he f hf hef
      rcases (hmem e).1 he with ⟨heS, hne⟩ | rfl <;> rcases (hmem f).1 hf with ⟨hfS, hnf⟩ | rfl
      · exact hS.disjoint e heS f hfS hef
      · exact ((hclear e heS).resolve_right hne).symm
      · exact (hclear f hfS).resolve_right hnf
      · exact absurd rfl hef
  · exact hS.subset (hok.refused ho)

end ActiveDataPartSet

end MergeTree
