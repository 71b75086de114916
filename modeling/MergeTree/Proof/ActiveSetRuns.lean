import MergeTree.Proof.ActiveDataPartSet

/-!
# Runs of an `ActiveDataPartSet`

* `reachable_sound` (every sequence of calls): the stored parts are disjoint, the
  neighbours decide coverage, and `tryAdd` and `add` do what `AddOk` says.
* `addImpl_unchanged_iff`: a refused part leaves the set as it was exactly when the
  first stored part it meets is not one that it covers. `tryAdd_erases` is a call
  that reports `HasIntersectingPart` and loses a part.
* `addAll_laminar`: parts of which any two are disjoint or nested may be added in any
  order; what is left are the parts that no other part properly contains.
-/

namespace MergeTree

namespace ActiveDataPartSet

variable {S T : ActiveDataPartSet} {p : PartInfo} {e f : Entry}

/-! ## The first part in the way -/

/-- The first stored part, in map order, that meets `p`. -/
def firstMeeting (S : ActiveDataPartSet) (p : PartInfo) : Option Entry :=
  S.partInfoToName.toList.find? fun e => ¬ p.IsDisjoint e.1

theorem firstMeeting_eq (S : ActiveDataPartSet) (p : PartInfo) :
    S.firstMeeting p = ((S.toTheLeft p).reverse.find? fun e => ¬ p.IsDisjoint e.1).or
      ((S.toTheRight p).find? fun e => ¬ p.IsDisjoint e.1) := by
  unfold firstMeeting
  rw [← S.partInfoToName.below_append_above p.toTuple, List.find?_append, toTheLeft, List.reverse_reverse]
  rfl

theorem firstMeeting_of_left (hS : S.Laid) (hp : p.Proper) {y : Entry} {ys : List Entry}
    (hL : S.toTheLeft p = y :: ys) (hy : ¬ p.IsDisjoint y.1) : S.firstMeeting p = some y := by
  have hys : (ys.reverse.find? fun e => ¬ p.IsDisjoint e.1) = none := by
    rw [List.find?_eq_none]
    intro e he
    simpa using (isDisjoint_left hS hp hL (List.mem_reverse.1 he)).symm
  rw [firstMeeting_eq, hL, List.reverse_cons, List.find?_append, hys]
  simp [hy]

theorem firstMeeting_of_right {x : Entry} {xs : List Entry}
    (hleft : ∀ e ∈ S.toTheLeft p, p.IsDisjoint e.1) (hR : S.toTheRight p = x :: xs)
    (hx : ¬ p.IsDisjoint x.1) : S.firstMeeting p = some x := by
  have hnone : ((S.toTheLeft p).reverse.find? fun e => ¬ p.IsDisjoint e.1) = none := by
    rw [List.find?_eq_none]
    intro e he
    simpa using hleft e (List.mem_reverse.1 he)
  rw [firstMeeting_eq, hnone, hR]
  simp [hx]

theorem toList_eraseBefore_eq_iff (S : ActiveDataPartSet) (p : PartInfo) :
    S.partInfoToName.eraseBefore p.toTuple (covers p) = S.partInfoToName ↔
      (S.toTheLeft p).dropWhile (covers p) = S.toTheLeft p := by
  rw [KeyedSet.ext_iff]
  conv_lhs => rhs; rw [← S.partInfoToName.below_append_above p.toTuple]
  rw [KeyedSet.eraseBefore, KeyedSet.toList_ofSublist, List.append_left_inj, ← toTheLeft,
    List.reverse_eq_iff, ← toTheLeft]

theorem toList_afterWalks_eq_iff (S : ActiveDataPartSet) (p : PartInfo) :
    (S.partInfoToName.eraseBefore p.toTuple (covers p)).eraseAfter p.toTuple (covers p) =
        S.partInfoToName ↔
      (S.toTheLeft p).dropWhile (covers p) = S.toTheLeft p ∧
        (S.toTheRight p).dropWhile (covers p) = S.toTheRight p := by
  have hlist : S.partInfoToName.toList = (S.toTheLeft p).reverse ++ S.toTheRight p := by
    rw [toTheLeft, List.reverse_reverse]
    exact (S.partInfoToName.below_append_above p.toTuple).symm
  have hl := (List.dropWhile_suffix (covers p) (l := S.toTheLeft p)).length_le
  have hr := (List.dropWhile_suffix (covers p) (l := S.toTheRight p)).length_le
  rw [KeyedSet.ext_iff, toList_afterWalks, hlist]
  constructor
  · intro h
    have hlen := congrArg List.length h
    simp only [List.length_append, List.length_reverse] at hlen
    exact ⟨(List.dropWhile_suffix _).eq_of_length (by omega), (List.dropWhile_suffix _).eq_of_length (by omega)⟩
  · rintro ⟨h1, h2⟩
    rw [h1, h2]

theorem not_contains_of_dropWhile_eq {x : Entry} {xs : List Entry}
    (h : (x :: xs).dropWhile (covers p) = x :: xs) : ¬ p.Contains x.1 := by
  intro hc
  have hx : covers p x = true := by simpa [covers] using hc
  rw [List.dropWhile_cons, if_pos hx] at h
  have := (List.dropWhile_suffix (covers p) (l := xs)).length_le
  rw [h, List.length_cons] at this
  omega

theorem dropWhile_eq_of_not_contains {x : Entry} {xs : List Entry} (h : ¬ p.Contains x.1) :
    (x :: xs).dropWhile (covers p) = x :: xs := by
  rw [List.dropWhile_cons, if_neg (by simpa [covers] using h)]

/-! ## Reachable sets -/

/-- A call on the set. -/
inductive Call
  | add (p : PartInfo) (name : String)
  | addName (name : String)
  | addInfo (p : PartInfo)
  | tryAdd (name : String)
  | tryAddPart (p : PartInfo)
  | remove (p : PartInfo)
  | removeName (name : String)

/-- The parts given as infos are proper; names are checked by the parser. -/
def Call.Proper : Call → Prop
  | .add p _ | .addInfo p | .tryAddPart p | .remove p => p.Proper
  | .addName _ | .tryAdd _ | .removeName _ => True

section Runs

variable [IntText]

/-- The set after a call, also when the call throws. -/
def Call.run (S : ActiveDataPartSet) : Call → ActiveDataPartSet
  | .add p name => (S.add p name).1
  | .addName name => (S.addName name).1
  | .addInfo p => (S.addInfo p).1
  | .tryAdd name => (S.tryAdd name).1
  | .tryAddPart p => (S.tryAddPart p).1
  | .remove p => (S.remove p).1
  | .removeName name => (S.removeName name).1

/-- The sets that calls lead to from the empty one. -/
inductive Reachable (v : ℕ) : ActiveDataPartSet → Prop
  | empty : Reachable v { formatVersion := v }
  | call {S : ActiveDataPartSet} {c : Call} : Reachable v S → c.Proper → Reachable v (c.run S)

theorem Laid.run (hS : S.Laid) {c : Call} (hc : c.Proper) : (c.run S).Laid := by
  cases c with
  | add p name => exact hS.addImpl hc name
  | addName name =>
    simp only [Call.run, addName]
    split
    · rename_i p hp
      exact hS.addImpl (fromPartName_proper hp) name
    · exact hS
  | addInfo p =>
    simp only [Call.run, addInfo]
    split
    · exact hS.addImpl hc _
    · exact hS
  | tryAdd name =>
    simp only [Call.run, tryAdd]
    split
    · rename_i p hp
      exact hS.addImpl (fromPartName_proper hp) name
    · exact hS
  | tryAddPart p =>
    simp only [Call.run, tryAddPart]
    split
    · exact hS.addImpl hc _
    · exact hS
  | remove p => exact hS.remove p
  | removeName name =>
    simp only [Call.run, removeName]
    split
    · exact hS.remove _
    · exact hS

theorem Reachable.laid {v : ℕ} (h : Reachable v S) : S.Laid := by
  induction h with
  | empty => exact Laid.empty v
  | call _ hc ih => exact ih.run hc

/-- **Every reachable set.** The stored parts are pairwise disjoint; the entry that
`getContainingPartImpl` finds is the stored part that contains `p`, and it finds one
whenever there is one; `tryAdd` and `add` report and do what `AddOk` says. -/
theorem reachable_sound {v : ℕ} (h : Reachable v S) :
    (∀ e ∈ S, ∀ f ∈ S, e ≠ f → e.1.IsDisjoint f.1) ∧
    (∀ p : PartInfo, p.Proper → ∀ f, S.getContainingPartImpl p = some f ↔ f ∈ S ∧ f.1.Contains p) ∧
    (∀ name p, fromPartName name S.formatVersion = .ok p →
      ∃ r, S.tryAdd name = (r.set, .ok (r.outcome, r.reason)) ∧ AddOk S p name r) ∧
    (∀ p name, p.Proper →
      ∃ r, S.add p name = (r.set, if r.outcome = .hasIntersectingPart then .error r.reason
          else .ok (r.outcome = .added, r.replacedParts)) ∧ AddOk S p name r) := by
  have hS := h.laid
  refine ⟨hS.disjoint, fun p hp f => getContainingPartImpl_eq_some hS hp, ?_, ?_⟩
  · intro name p hp
    refine ⟨S.addImpl p name, ?_, addImpl_ok hS (fromPartName_proper hp) name⟩
    unfold tryAdd
    rw [hp]
  · intro p name hp
    exact ⟨S.addImpl p name, rfl, addImpl_ok hS hp name⟩

omit [IntText] in
/-- The set after `all_1_1_0` was added and a part that meets nothing else was tried. -/
theorem reachable_sound_two_calls :
    let _ : IntText := IntText.decimal
    let S := (Call.tryAdd "all_0_3_1").run ((Call.addName "all_1_1_0").run {})
    ∀ p : PartInfo, p.Proper → ∀ f, S.getContainingPartImpl p = some f ↔ f ∈ S ∧ f.1.Contains p := by
  intro _
  exact (reachable_sound (.call (c := .tryAdd "all_0_3_1")
    (.call (c := .addName "all_1_1_0") (.empty (v := 1)) trivial) trivial)).2.1

/-! ## Refused parts -/

/-- **When a refused part leaves the set alone**: exactly when the first stored part it
meets is not one that it covers. -/
theorem addImpl_unchanged_iff (hS : S.Laid) (hp : p.Proper) {name : String}
    (ho : (S.addImpl p name).outcome = .hasIntersectingPart) :
    (S.addImpl p name).set = S ↔ ∀ e, S.firstMeeting p = some e → ¬ p.Contains e.1 := by
  have hset : (S.addImpl p name).set = S ↔ (S.addImpl p name).set.partInfoToName = S.partInfoToName := by
    have hv := addImpl_formatVersion S p name
    constructor
    · intro h; rw [h]
    · intro h
      cases hr : (S.addImpl p name).set
      cases S
      simp_all
  rw [hset]
  rcases addImpl_cases S p name with ⟨-, hr⟩ | ⟨-, e, hi, -, hmap⟩ | ⟨-, hl, e, hi, -, hmap⟩ |
      ⟨-, -, -, hadd, -⟩
  · rw [hr] at ho; cases ho
  · -- the previous entry is the obstacle, so nothing was erased
    obtain ⟨hm, hnc, hnd⟩ := mem_of_intersecting hi
    rw [hmap, toList_eraseBefore_eq_iff]
    cases hL : S.toTheLeft p with
    | nil => rw [hL] at hm; cases hm
    | cons y ys =>
      rw [hL] at hm
      rcases List.mem_cons.1 hm with rfl | hys
      · rw [dropWhile_eq_of_not_contains hnc, firstMeeting_of_left hS hp hL hnd]
        simp [hnc]
      · exact absurd (isDisjoint_left hS hp hL hys).symm hnd
  · obtain ⟨hm, hnc, hnd⟩ := mem_of_intersecting hi
    rw [hmap, toList_afterWalks_eq_iff]
    have hclear := left_clear hS hp hl
    cases hR : S.toTheRight p with
    | nil => rw [hR] at hm; cases hm
    | cons x xs =>
      have hxR := mem_toTheRight.1 (hR ▸ List.mem_cons_self : x ∈ S.toTheRight p)
      have hx : ¬ p.IsDisjoint x.1 := by
        rw [hR] at hm
        rcases List.mem_cons.1 hm with rfl | hxs
        · exact hnd
        · intro hd
          exact hnd (isDisjoint_right (l := []) hS hp hR hd.symm hxs).symm
      by_cases hleft : (S.toTheLeft p).dropWhile (covers p) = S.toTheLeft p
      · rw [hleft] at hclear
        rw [firstMeeting_of_right hclear hR hx]
        constructor
        · rintro ⟨-, h⟩ e' he'
          cases he'
          exact not_contains_of_dropWhile_eq h
        · intro h
          exact ⟨hleft, dropWhile_eq_of_not_contains (h x rfl)⟩
      · -- the previous entry was covered and is gone
        cases hL : S.toTheLeft p with
        | nil => rw [hL] at hleft; exact absurd rfl hleft
        | cons y ys =>
          have hyL := mem_toTheLeft.1 (hL ▸ List.mem_cons_self : y ∈ S.toTheLeft p)
          have hyc : p.Contains y.1 := by
            by_contra hnot
            rw [hL] at hleft
            exact hleft (dropWhile_eq_of_not_contains hnot)
          rw [firstMeeting_of_left hS hp hL (hyc.not_isDisjoint (hS.proper y hyL.1).blocks)]
          rw [hL] at hleft
          simp [hleft, hyc]
  · rw [hadd] at ho; cases ho

end Runs

/-! ## A call that loses a part -/

section Decimal

attribute [local instance] IntText.decimal

/-- `all_1_1_0` and `all_2_4_1`. -/
def twoParts : ActiveDataPartSet :=
  ((({} : ActiveDataPartSet).addName "all_1_1_0").1.addName "all_2_4_1").1

/-- **`tryAdd` of `all_1_3_1` loses `all_1_1_0`** although it reports that the part
intersects `all_2_4_1`. -/
theorem tryAdd_erases :
    (twoParts.tryAdd "all_1_3_1").2.toOption.map Prod.fst = some .hasIntersectingPart ∧
      (∀ e ∈ twoParts.partInfoToName.toList, ∀ f ∈ twoParts.partInfoToName.toList,
        e ≠ f → e.1.IsDisjoint f.1) ∧
      twoParts.partInfoToName.toList.map Prod.snd = ["all_1_1_0", "all_2_4_1"] ∧
      (twoParts.tryAdd "all_1_3_1").1.partInfoToName.toList.map Prod.snd = ["all_2_4_1"] := by
  decide +kernel

theorem twoParts_laid : twoParts.Laid :=
  ((Laid.empty 1).run (c := .addName "all_1_1_0") trivial).run (c := .addName "all_2_4_1") trivial

/-- On the two parts above the condition fails for `all_1_3_1`. -/
theorem addImpl_unchanged_iff_two_parts :
    let p := PartInfo.make "all" 1 3 1 0
    (twoParts.addImpl p "all_1_3_1").set = twoParts ↔
      ∀ e, twoParts.firstMeeting p = some e → ¬ p.Contains e.1 := by
  intro p
  exact addImpl_unchanged_iff twoParts_laid (by decide) (by decide)

end Decimal

/-! ## Parts learned in any order -/

section Orders

variable [IntText]

/-- Adds parts one after the other; an intersection throws. -/
def addAll (S : ActiveDataPartSet) : List Entry → Except String ActiveDataPartSet
  | [] => .ok S
  | e :: es =>
    match S.add e.1 e.2 with
    | (T, .ok _) => T.addAll es
    | (_, .error reason) => .error reason

omit [IntText] in
/-- What a set holds after the parts `l` were added: some of them, and one that covers
each of them. -/
structure Learned (l : List Entry) (S : ActiveDataPartSet) : Prop where
  laid : S.Laid
  mem : ∀ e ∈ S, e ∈ l
  covered : ∀ a ∈ l, ∃ e ∈ S, e.1.Contains a.1

/-- Any two of the parts are disjoint or nested. -/
def Laminar (l : List Entry) : Prop :=
  ∀ a ∈ l, ∀ b ∈ l, a.1.IsDisjoint b.1 ∨ a.1.Contains b.1 ∨ b.1.Contains a.1

theorem Learned.add {l : List Entry} {S : ActiveDataPartSet} (h : Learned l S) {a : Entry}
    (ha : a.1.Proper) (hlam : ∀ b ∈ l, a.1.IsDisjoint b.1 ∨ a.1.Contains b.1 ∨ b.1.Contains a.1) :
    ∃ T r, S.add a.1 a.2 = (T, .ok r) ∧ Learned (a :: l) T := by
  have hok := addImpl_ok h.laid ha a.2
  have hno : (S.addImpl a.1 a.2).outcome ≠ .hasIntersectingPart := by
    intro ho
    obtain ⟨hnone, e, he, hd, hc⟩ := hok.hasIntersectingPart.1 ho
    rcases hlam e (h.mem e he) with h1 | h1 | h1
    · exact hd h1
    · exact hc h1
    · exact hnone ⟨e, he, h1⟩
  refine ⟨(S.addImpl a.1 a.2).set, ((S.addImpl a.1 a.2).outcome = .added, (S.addImpl a.1 a.2).replacedParts),
    by simp only [ActiveDataPartSet.add]; rw [if_neg hno], h.laid.addImpl ha a.2, ?_, ?_⟩
  · intro e he
    by_cases ho : (S.addImpl a.1 a.2).outcome = .added
    · rcases (hok.mem_set ho e).1 he with ⟨heS, -⟩ | rfl
      · exact List.mem_cons_of_mem _ (h.mem e heS)
      · exact List.mem_cons_self
    · exact List.mem_cons_of_mem _ (h.mem e (hok.refused ho e he))
  · intro b hb
    by_cases ho : (S.addImpl a.1 a.2).outcome = .added
    · have hself : (a : Entry) ∈ (S.addImpl a.1 a.2).set := (hok.mem_set ho a).2 (Or.inr rfl)
      rcases List.mem_cons.1 hb with rfl | hb
      · exact ⟨b, hself, PartInfo.Contains.refl _⟩
      · obtain ⟨e, he, hc⟩ := h.covered b hb
        by_cases hae : a.1.Contains e.1
        · exact ⟨a, hself, hae.trans hc⟩
        · exact ⟨e, (hok.mem_set ho e).2 (Or.inl ⟨he, hae⟩), hc⟩
    · -- the part was covered, and the set did not change
      have hcov : (S.addImpl a.1 a.2).outcome = .hasCovering := by
        cases hcase : (S.addImpl a.1 a.2).outcome <;> simp_all
      rw [addImpl_set_of_hasCovering hcov]
      rcases List.mem_cons.1 hb with rfl | hb
      · exact hok.hasCovering.1 hcov
      · exact h.covered b hb

theorem Learned.addAll : ∀ {es l : List Entry} {S : ActiveDataPartSet}, Learned l S →
    (∀ a ∈ es, a.1.Proper) → Laminar (es ++ l) → ∃ T, S.addAll es = .ok T ∧ Learned (es.reverse ++ l) T := by
  intro es
  induction es with
  | nil => intro l S h _ _; exact ⟨S, rfl, h⟩
  | cons a es ih =>
    intro l S h hp hlam
    obtain ⟨T, r, hadd, hT⟩ := h.add (hp a List.mem_cons_self) fun b hb =>
      hlam a List.mem_cons_self b (List.mem_append_right _ hb)
    have hlam' : Laminar (es ++ a :: l) := by
      intro x hx y hy
      apply hlam
      · simp only [List.mem_append, List.mem_cons] at hx ⊢; tauto
      · simp only [List.mem_append, List.mem_cons] at hy ⊢; tauto
    obtain ⟨U, hU, hL⟩ := ih hT (fun b hb => hp b (List.mem_cons_of_mem _ hb)) hlam'
    refine ⟨U, ?_, ?_⟩
    · rw [ActiveDataPartSet.addAll, hadd]
      exact hU
    · rw [List.reverse_cons, List.append_assoc]
      exact hL

omit [IntText] in
theorem Learned.maximal {l : List Entry} {S : ActiveDataPartSet} (h : Learned l S)
    (hp : ∀ a ∈ l, a.1.Proper) (k : PartTuple) : (∃ e ∈ S, e.1.toTuple = k) ↔
      ∃ a ∈ l, a.1.toTuple = k ∧ ∀ b ∈ l, b.1.Contains a.1 → b.1.Eqv a.1 := by
  constructor
  · rintro ⟨e, he, rfl⟩
    refine ⟨e, h.mem e he, rfl, ?_⟩
    intro b hb hc
    obtain ⟨f, hf, hfb⟩ := h.covered b hb
    have hpe := hp e (h.mem e he)
    have hfe : f = e := h.laid.eq_of_meet hf he ((hfb.trans hc).not_isDisjoint hpe.blocks)
    subst hfe
    exact hc.antisymm hfb ((hp b hb).kind_eq hpe hc.1)
  · rintro ⟨a, ha, rfl, hmax⟩
    obtain ⟨e, he, hc⟩ := h.covered a ha
    exact ⟨e, he, hmax e (h.mem e he) hc⟩

/-- **Any order of a laminar family gives the same set.** Parts of which any two are
disjoint or nested are added to an empty set without an intersection, in any order,
and what the set holds are the parts that no other part properly contains. -/
theorem addAll_laminar {l : List Entry} (hp : ∀ a ∈ l, a.1.Proper) (hlam : Laminar l) (v : ℕ) :
    (∀ l', l'.Perm l → ∃ T, addAll { formatVersion := v } l' = .ok T ∧ (∀ e ∈ T, e ∈ l) ∧
      ∀ k, (∃ e ∈ T, e.1.toTuple = k) ↔
        ∃ a ∈ l, a.1.toTuple = k ∧ ∀ b ∈ l, b.1.Contains a.1 → b.1.Eqv a.1) ∧
    (∀ l₁ l₂ T₁ T₂, l₁.Perm l → l₂.Perm l → addAll { formatVersion := v } l₁ = .ok T₁ →
      addAll { formatVersion := v } l₂ = .ok T₂ →
      T₁.partInfoToName.toList.map entryKey = T₂.partInfoToName.toList.map entryKey) := by
  have hempty : Learned [] { formatVersion := v } :=
    ⟨Laid.empty v, fun e he => absurd he (KeyedSet.notMem_empty e), fun a ha => by cases ha⟩
  have hall : ∀ l', l'.Perm l → ∃ T, addAll { formatVersion := v } l' = .ok T ∧ (∀ e ∈ T, e ∈ l) ∧
      ∀ k, (∃ e ∈ T, e.1.toTuple = k) ↔
        ∃ a ∈ l, a.1.toTuple = k ∧ ∀ b ∈ l, b.1.Contains a.1 → b.1.Eqv a.1 := by
    intro l' hperm
    have hmem : ∀ a, a ∈ l' ↔ a ∈ l := fun a => hperm.mem_iff
    have hlam' : Laminar (l' ++ []) := by
      rw [List.append_nil]
      exact fun a ha b hb => hlam a ((hmem a).1 ha) b ((hmem b).1 hb)
    obtain ⟨T, hT, hL⟩ := hempty.addAll (fun a ha => hp a ((hmem a).1 ha)) hlam'
    have hrev : ∀ a, a ∈ l'.reverse ++ [] ↔ a ∈ l := by
      intro a
      rw [List.append_nil, List.mem_reverse, hmem]
    refine ⟨T, hT, fun e he => (hrev e).1 (hL.mem e he), fun k => ?_⟩
    rw [hL.maximal (fun a ha => hp a ((hrev a).1 ha)) k]
    simp only [hrev]
  refine ⟨hall, ?_⟩
  intro l₁ l₂ T₁ T₂ h₁ h₂ hT₁ hT₂
  obtain ⟨U₁, hU₁, -, hk₁⟩ := hall l₁ h₁
  obtain ⟨U₂, hU₂, -, hk₂⟩ := hall l₂ h₂
  rw [hT₁] at hU₁
  rw [hT₂] at hU₂
  cases hU₁
  cases hU₂
  exact KeyedSet.keys_eq fun k => (hk₁ k).trans (hk₂ k).symm

end Orders

/-- Three parts and the merge of two of them, in the order of the replication log. -/
theorem addAll_laminar_merge :
    let _ : IntText := IntText.decimal
    let part := fun a b l => (PartInfo.make "all" a b l 0, (PartInfo.make "all" a b l 0).getPartNameV1)
    let l := [part 0 0 0, part 1 1 0, part 0 1 1, part 2 2 0]
    ∃ T, addAll {} l = .ok T ∧ ∀ k, (∃ e ∈ T, e.1.toTuple = k) ↔
      ∃ a ∈ l, a.1.toTuple = k ∧ ∀ b ∈ l, b.1.Contains a.1 → b.1.Eqv a.1 := by
  intro _ part l
  have hlam : Laminar l := by
    unfold Laminar
    decide
  obtain ⟨T, hT, -, hk⟩ := (addAll_laminar (by decide) hlam 1).1 l (List.Perm.refl l)
  exact ⟨T, hT, hk⟩

end ActiveDataPartSet

end MergeTree
