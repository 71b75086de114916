import MergeTree.Spec.PartsMover

/-!
# Parts that are moved to free a disk

The collected parts are always heaviest ones with the required size (`Collected`): once the size
is reached, what is left out or dropped is not heavier than what is kept. They are a minimal
set as long as no call leaves something redundant behind (`minimal_call`), which `add` does
when a heavy part follows lighter ones that were not enough (`not_holdsHeaviest_heavyPart`).
-/

namespace MergeTree

open LargestPartsWithRequiredSize

variable {l l' : List MovedPart} {part kept : MovedPart}

/-! ## Sizes -/

@[simp] theorem sizeSum_nil : sizeSum [] = 0 := rfl

@[simp] theorem sizeSum_cons : sizeSum (part :: l) = part.bytesOnDisk + sizeSum l := by
  simp [sizeSum]

@[simp] theorem sizeSum_append : sizeSum (l ++ l') = sizeSum l + sizeSum l' := by
  simp [sizeSum]

theorem sizeSum_perm (h : l.Perm l') : sizeSum l = sizeSum l' := (h.map _).sum_eq

theorem sizeSum_sublist (h : l.Sublist l') : sizeSum l ≤ sizeSum l' := (h.map _).sum_le_sum fun _ _ => Nat.zero_le _

theorem sizeSum_subset (hnodup : l.Nodup) (h : ∀ part ∈ l, part ∈ l') : sizeSum l ≤ sizeSum l' := by
  obtain ⟨m, hperm, hsub⟩ := hnodup.subperm h
  rw [← sizeSum_perm hperm]
  exact sizeSum_sublist hsub

theorem bytesOnDisk_le_of_key_le (h : part.sizeKey ≤ kept.sizeKey) : part.bytesOnDisk ≤ kept.bytesOnDisk := by
  rcases Prod.Lex.le_iff.1 h with hlt | ⟨heq, -⟩
  · exact hlt.le
  · exact heq.le

theorem name_eq_of_key_eq (h : part.sizeKey = kept.sizeKey) : part.name = kept.name :=
  (Prod.ext_iff.1 (toLex.injective h)).2

theorem KeyedSet.nodup_toList {s : KeyedSet MovedPart.sizeKey} : s.toList.Nodup :=
  s.sorted.imp fun hlt heq => absurd (heq ▸ hlt) (lt_irrefl _)

/-! ## Removing redundant elements -/

theorem removeRedundant_spec {requiredSizeSum : ℕ} : ∀ {elems : List MovedPart},
    elems.Pairwise (fun p q => p.sizeKey < q.sizeKey) → sizeSum elems < 2 ^ 64 →
    (removeRedundant requiredSizeSum elems (sizeSum elems)).2 =
        sizeSum (removeRedundant requiredSizeSum elems (sizeSum elems)).1 ∧
      (∀ kept ∈ (removeRedundant requiredSizeSum elems (sizeSum elems)).1,
        (removeRedundant requiredSizeSum elems (sizeSum elems)).2 - kept.bytesOnDisk < requiredSizeSum) ∧
      (requiredSizeSum ≤ sizeSum elems → requiredSizeSum ≤ (removeRedundant requiredSizeSum elems (sizeSum elems)).2) ∧
      (sizeSum elems < requiredSizeSum → (removeRedundant requiredSizeSum elems (sizeSum elems)).1 = elems) ∧
      ∀ part ∈ elems, part ∉ (removeRedundant requiredSizeSum elems (sizeSum elems)).1 →
        ∀ kept ∈ (removeRedundant requiredSizeSum elems (sizeSum elems)).1, part.bytesOnDisk ≤ kept.bytesOnDisk := by
  intro elems
  induction elems with
  | nil => exact fun _ _ => ⟨rfl, by simp [removeRedundant], fun h => h, fun _ => rfl, by simp⟩
  | cons first elems ih =>
    intro hsorted hsum
    obtain ⟨hfirst, hrest⟩ := List.pairwise_cons.1 hsorted
    rw [sizeSum_cons] at *
    have hsub : subSize (first.bytesOnDisk + sizeSum elems) first.bytesOnDisk = sizeSum elems := by
      rw [subSize_of_le (by omega) hsum]
      omega
    rw [removeRedundant, hsub]
    split
    · rename_i hredundant
      obtain ⟨hsum_eq, hminimal, henough, -, hdropped⟩ := ih hrest (by omega)
      refine ⟨hsum_eq, hminimal, fun _ => henough hredundant, fun hlt => absurd hredundant (by omega), ?_⟩
      intro part hpart hout kept hkept
      rcases List.mem_cons.1 hpart with rfl | hpart
      · exact bytesOnDisk_le_of_key_le (hfirst kept ((removeRedundant_suffix _ _ _).subset hkept)).le
      · exact hdropped part hpart hout kept hkept
    · rename_i hneeded
      refine ⟨by rw [sizeSum_cons], fun kept hkept => ?_, fun h => h, fun _ => rfl, fun part hpart hout => absurd hpart hout⟩
      have hle : first.bytesOnDisk ≤ kept.bytesOnDisk := by
        rcases List.mem_cons.1 hkept with rfl | hkept
        · exact le_rfl
        · exact bytesOnDisk_le_of_key_le (hfirst kept hkept).le
      omega

/-! ## The collected parts -/

namespace LargestPartsWithRequiredSize

variable {s : LargestPartsWithRequiredSize} {added : List MovedPart}

/-- **Heaviest parts with the required size**, or all parts when they do not reach it. -/
structure Collected (s : LargestPartsWithRequiredSize) (added : List MovedPart) : Prop where
  sum_eq : s.currentSizeSum = sizeSum s.elems.toList
  mem_added : ∀ part ∈ s.elems, part ∈ added
  heaviest : ∀ part ∈ added, part ∉ s.elems → ∀ kept ∈ s.elems, part.bytesOnDisk ≤ kept.bytesOnDisk
  enough : s.requiredSizeSum ≤ s.currentSizeSum ∨ ∀ part ∈ added, part ∈ s.elems

/-- Every element is needed. -/
def Minimal (s : LargestPartsWithRequiredSize) : Prop := ∀ kept ∈ s.elems, s.currentSizeSum - kept.bytesOnDisk < s.requiredSizeSum

theorem holdsHeaviest_iff (hnodup : added.Nodup) : HoldsHeaviest s added ↔ s.Collected added ∧ s.Minimal := by
  constructor
  · rintro ⟨hsum, hmem, hheaviest, henough⟩
    rcases henough with ⟨hle, hminimal⟩ | ⟨hlt, hall⟩
    · exact ⟨⟨hsum, hmem, hheaviest, Or.inl (hsum ▸ hle)⟩, fun kept hkept => hsum ▸ hminimal kept hkept⟩
    · refine ⟨⟨hsum, hmem, hheaviest, Or.inr hall⟩, fun kept _ => ?_⟩
      have hle := sizeSum_subset KeyedSet.nodup_toList hmem
      omega
  · rintro ⟨⟨hsum, hmem, hheaviest, henough⟩, hminimal⟩
    refine ⟨hsum, hmem, hheaviest, ?_⟩
    rcases Nat.lt_or_ge s.currentSizeSum s.requiredSizeSum with hlt | hge
    · have hall := henough.resolve_left (by omega)
      have hle := sizeSum_subset hnodup hall
      exact Or.inr ⟨by omega, hall⟩
    · exact Or.inl ⟨hsum ▸ hge, fun kept hkept => hsum ▸ hminimal kept hkept⟩

theorem collected_start (requiredSizeSum : ℕ) : Collected { requiredSizeSum := requiredSizeSum } [] :=
  ⟨rfl, fun _ h => absurd h (by simp [KeyedSet.mem_def]), fun _ h => absurd h List.not_mem_nil, Or.inr fun _ h => absurd h List.not_mem_nil⟩

section Emplace

variable (hnew : ∀ kept ∈ s.elems, kept.sizeKey ≠ part.sizeKey)

include hnew

theorem mem_emplace_iff : kept ∈ (s.emplace part).elems ↔ kept ∈ s.elems ∨ kept = part := by
  change kept ∈ s.elems.emplace part ↔ _
  rw [KeyedSet.mem_emplace]
  exact or_congr_right (and_iff_left hnew)

theorem sizeSum_emplace : sizeSum (s.emplace part).elems.toList = sizeSum s.elems.toList + part.bytesOnDisk := by
  change sizeSum (s.elems.emplace part).toList = _
  rw [KeyedSet.toList_emplace_of_new hnew, sizeSum_append, sizeSum_cons]
  have hsplit := congrArg sizeSum (s.elems.below_append_above part.sizeKey)
  rw [sizeSum_append] at hsplit
  omega

end Emplace

theorem mem_of_mem_removeRedundantElements (h : kept ∈ s.removeRedundantElements.elems) : kept ∈ s.elems :=
  (removeRedundant_suffix _ _ _).subset h

section Redundant

variable (hsum : s.currentSizeSum = sizeSum s.elems.toList) (hlt : s.currentSizeSum < 2 ^ 64)

include hsum hlt

theorem minimal_removeRedundantElements : s.removeRedundantElements.Minimal := by
  have hspec := @removeRedundant_spec s.requiredSizeSum _ s.elems.sorted (hsum ▸ hlt)
  rw [← hsum] at hspec
  exact hspec.2.1

theorem sum_removeRedundantElements :
    s.removeRedundantElements.currentSizeSum = sizeSum s.removeRedundantElements.elems.toList := by
  have hspec := @removeRedundant_spec s.requiredSizeSum _ s.elems.sorted (hsum ▸ hlt)
  rw [← hsum] at hspec
  exact hspec.1

theorem enough_removeRedundantElements (h : s.requiredSizeSum ≤ s.currentSizeSum) :
    s.removeRedundantElements.requiredSizeSum ≤ s.removeRedundantElements.currentSizeSum := by
  have hspec := @removeRedundant_spec s.requiredSizeSum _ s.elems.sorted (hsum ▸ hlt)
  rw [← hsum] at hspec
  exact hspec.2.2.1 h

theorem removeRedundantElements_of_lt (h : s.currentSizeSum < s.requiredSizeSum) :
    s.removeRedundantElements.elems.toList = s.elems.toList := by
  have hspec := @removeRedundant_spec s.requiredSizeSum _ s.elems.sorted (hsum ▸ hlt)
  rw [← hsum] at hspec
  exact hspec.2.2.2.1 h

theorem heaviest_removeRedundantElements (hpart : part ∈ s.elems) (hout : part ∉ s.removeRedundantElements.elems)
    (hkept : kept ∈ s.removeRedundantElements.elems) : part.bytesOnDisk ≤ kept.bytesOnDisk := by
  have hspec := @removeRedundant_spec s.requiredSizeSum _ s.elems.sorted (hsum ▸ hlt)
  rw [← hsum] at hspec
  exact hspec.2.2.2.2 part hpart hout kept hkept

end Redundant

theorem Collected.decrease (h : s.Collected added) (hlt : s.currentSizeSum < 2 ^ 64) (size : ℕ) :
    (s.decreaseRequiredSizeAndRemoveRedundantParts size).Collected added := by
  unfold decreaseRequiredSizeAndRemoveRedundantParts
  set lowered : LargestPartsWithRequiredSize := { s with requiredSizeSum := s.requiredSizeSum - min size s.requiredSizeSum } with hlowered
  have hsum : lowered.currentSizeSum = sizeSum lowered.elems.toList := h.sum_eq
  have hmem : ∀ part ∈ lowered.removeRedundantElements.elems, part ∈ s.elems := fun part hpart =>
    mem_of_mem_removeRedundantElements (s := lowered) hpart
  refine ⟨sum_removeRedundantElements hsum hlt, fun part hpart => h.mem_added part (hmem part hpart), ?_, ?_⟩
  · intro part hpart hout kept hkept
    by_cases hin : part ∈ s.elems
    · exact heaviest_removeRedundantElements hsum hlt hin hout hkept
    · exact h.heaviest part hpart hin kept (hmem kept hkept)
  · rcases Nat.lt_or_ge lowered.currentSizeSum lowered.requiredSizeSum with hsmall | hlarge
    · right
      have hall := h.enough.resolve_left (by
        have hle : lowered.requiredSizeSum ≤ s.requiredSizeSum := Nat.sub_le _ _
        have hcurrent : lowered.currentSizeSum = s.currentSizeSum := rfl
        omega)
      intro part hpart
      rw [KeyedSet.mem_def, removeRedundantElements_of_lt hsum hlt hsmall]
      exact hall part hpart
    · exact Or.inl (enough_removeRedundantElements hsum hlt hlarge)

theorem Collected.add (h : s.Collected added) (hname : ∀ p ∈ added, p.name ≠ part.name)
    (hlt : s.currentSizeSum + part.bytesOnDisk < 2 ^ 64) : (s.add part).Collected (added ++ [part]) := by
  have hnew : ∀ kept ∈ s.elems, kept.sizeKey ≠ part.sizeKey := fun kept hkept heq =>
    hname kept (h.mem_added kept hkept) (name_eq_of_key_eq heq)
  have hout_part : part ∉ s.elems := fun hin => hnew part hin rfl
  have hemplace_sum : (s.emplace part).currentSizeSum = sizeSum (s.emplace part).elems.toList := by
    rw [sizeSum_emplace hnew, ← h.sum_eq]
    exact addSize_of_lt hlt
  have hemplace_current : (s.emplace part).currentSizeSum = s.currentSizeSum + part.bytesOnDisk := addSize_of_lt hlt
  have hemplace_mem : ∀ p ∈ (s.emplace part).elems, p ∈ added ++ [part] := by
    intro p hp
    rcases (mem_emplace_iff hnew).1 hp with hp | rfl
    · exact List.mem_append_left _ (h.mem_added p hp)
    · simp
  unfold LargestPartsWithRequiredSize.add
  split
  · rename_i hsmall
    have hall := h.enough.resolve_left (by omega)
    have hall' : ∀ p ∈ added ++ [part], p ∈ (s.emplace part).elems := by
      intro p hp
      rw [mem_emplace_iff hnew]
      rcases List.mem_append.1 hp with hp | hp
      · exact Or.inl (hall p hp)
      · exact Or.inr (List.mem_singleton.1 hp)
    exact ⟨hemplace_sum, hemplace_mem, fun p hp hout => absurd (hall' p hp) hout, Or.inr hall'⟩
  · rename_i hlarge
    split
    -- the part is not heavier than the lightest element
    · rename_i hlight
      obtain ⟨first, hfirst, hle⟩ := (Option.any_eq_true _ _).1 hlight
      refine ⟨h.sum_eq, fun p hp => List.mem_append_left _ (h.mem_added p hp), ?_, Or.inl (by omega)⟩
      intro p hp hout kept hkept
      rcases List.mem_append.1 hp with hp | hp
      · exact h.heaviest p hp hout kept hkept
      · obtain rfl := List.mem_singleton.1 hp
        have hmin := (KeyedSet.head?_eq_some.1 hfirst).2 kept hkept
        exact (of_decide_eq_true hle).trans (bytesOnDisk_le_of_key_le hmin)
    · rename_i hheavy
      have hsum_lt : (s.emplace part).currentSizeSum < 2 ^ 64 := hemplace_current ▸ hlt
      refine ⟨sum_removeRedundantElements hemplace_sum hsum_lt, fun p hp => hemplace_mem p (mem_of_mem_removeRedundantElements hp),
        ?_, Or.inl (enough_removeRedundantElements hemplace_sum hsum_lt ?_)⟩
      · intro p hp hout kept hkept
        by_cases hin : p ∈ (s.emplace part).elems
        · exact heaviest_removeRedundantElements hemplace_sum hsum_lt hin hout hkept
        -- left out before: not heavier than the old elements, and than the part that is heavier than one of them
        · have hp_added : p ∈ added := by
            rcases List.mem_append.1 hp with hp | hp
            · exact hp
            · exact absurd ((mem_emplace_iff hnew).2 (Or.inr (List.mem_singleton.1 hp))) hin
          have hp_out : p ∉ s.elems := fun hp_in => hin ((mem_emplace_iff hnew).2 (Or.inl hp_in))
          rcases (mem_emplace_iff hnew).1 (mem_of_mem_removeRedundantElements hkept) with hkept' | rfl
          · exact h.heaviest p hp_added hp_out kept hkept'
          · cases hhead : s.elems.toList.head? with
            | none =>
              -- nothing was kept, so nothing is required, and nothing is kept
              have hzero : s.currentSizeSum = 0 := by
                rw [h.sum_eq, List.head?_eq_none_iff.1 hhead]
                rfl
              have hneeded := minimal_removeRedundantElements hemplace_sum hsum_lt kept hkept
              have hrequired : (s.emplace kept).removeRedundantElements.requiredSizeSum = s.requiredSizeSum := rfl
              omega
            | some first =>
              have hfirst := (KeyedSet.head?_eq_some.1 hhead).1
              have hlighter : first.bytesOnDisk < kept.bytesOnDisk := by
                rw [hhead] at hheavy
                simpa using hheavy
              exact (h.heaviest p hp_added hp_out first hfirst).trans hlighter.le
      · have hrequired : (s.emplace part).requiredSizeSum = s.requiredSizeSum := rfl
        omega

/-- **When a call leaves nothing redundant**: always, except that a part added to a set that is too small must not
make another one superfluous. -/
theorem Collected.minimal_call (h : s.Collected added) (hminimal : s.Minimal) (call : SizeCall)
    (hname : ∀ part, call = .add part → ∀ p ∈ added, p.name ≠ part.name)
    (hlt : s.currentSizeSum + sizeSum (addedParts [call]) < 2 ^ 64) :
    (s.call call).Minimal ↔ call.LeavesNothingRedundant s := by
  cases call with
  | decrease size =>
    have hcurrent : s.currentSizeSum < 2 ^ 64 := by omega
    refine ⟨fun _ => trivial, fun _ => ?_⟩
    exact minimal_removeRedundantElements (s := { s with requiredSizeSum := s.requiredSizeSum - min size s.requiredSizeSum })
      h.sum_eq hcurrent
  | add part =>
    have hlt' : s.currentSizeSum + part.bytesOnDisk < 2 ^ 64 := by simpa [addedParts] using hlt
    have hnew : ∀ kept ∈ s.elems, kept.sizeKey ≠ part.sizeKey := fun kept hkept heq =>
      hname part rfl kept (h.mem_added kept hkept) (name_eq_of_key_eq heq)
    have hcurrent : (s.emplace part).currentSizeSum = s.currentSizeSum + part.bytesOnDisk := addSize_of_lt hlt'
    change (s.add part).Minimal ↔ _
    unfold LargestPartsWithRequiredSize.add
    split
    · rename_i hsmall
      have hrequired : (s.emplace part).requiredSizeSum = s.requiredSizeSum := rfl
      constructor
      · intro hafter _ _ kept hkept
        have hneeded := hafter kept ((mem_emplace_iff hnew).2 (Or.inl hkept))
        omega
      · intro hleaves kept hkept
        rcases Nat.lt_or_ge (s.currentSizeSum + part.bytesOnDisk) s.requiredSizeSum with hstill | hreached
        · omega
        rcases (mem_emplace_iff hnew).1 hkept with hkept | rfl
        · have hneeded := hleaves hsmall hreached kept hkept
          omega
        · omega
    · rename_i hlarge
      have hleaves : SizeCall.LeavesNothingRedundant s (.add part) := fun hsmall => absurd hsmall hlarge
      split
      · exact ⟨fun _ => hleaves, fun _ => hminimal⟩
      · refine ⟨fun _ => hleaves, fun _ => minimal_removeRedundantElements ?_ (hcurrent ▸ hlt')⟩
        rw [sizeSum_emplace hnew, ← h.sum_eq]
        exact hcurrent

theorem Collected.call (h : s.Collected added) (call : SizeCall)
    (hname : ∀ part, call = .add part → ∀ p ∈ added, p.name ≠ part.name)
    (hlt : s.currentSizeSum + sizeSum (addedParts [call]) < 2 ^ 64) : (s.call call).Collected (added ++ addedParts [call]) := by
  cases call with
  | decrease size =>
    have hadded : added ++ addedParts [SizeCall.decrease size] = added := List.append_nil added
    rw [hadded]
    exact h.decrease (by omega) size
  | add part => exact h.add (hname part rfl) (by simpa [addedParts] using hlt)

end LargestPartsWithRequiredSize

/-! ## Runs -/

section Runs

variable {requiredSumSize : ℕ} {calls : List SizeCall} {n : ℕ}

theorem afterCalls_take_succ (hn : n < calls.length) : afterCalls requiredSumSize (calls.take (n + 1)) =
    (afterCalls requiredSumSize (calls.take n)).call calls[n] := by
  unfold afterCalls
  rw [List.take_succ_eq_append_getElem hn, List.foldl_append]
  rfl

theorem addedParts_append (calls calls' : List SizeCall) : addedParts (calls ++ calls') = addedParts calls ++ addedParts calls' :=
  List.filterMap_append

theorem addedParts_take_succ (hn : n < calls.length) :
    addedParts (calls.take (n + 1)) = addedParts (calls.take n) ++ addedParts [calls[n]] := by
  rw [List.take_succ_eq_append_getElem hn, addedParts_append]

variable (hnames : ((addedParts calls).map MovedPart.name).Nodup) (hsum : sizeSum (addedParts calls) < 2 ^ 64)

include hnames

theorem nodup_addedParts_take (n : ℕ) : ((addedParts (calls.take n)).map MovedPart.name).Nodup :=
  hnames.sublist (((List.take_sublist n calls).filterMap _).map _)

theorem name_ne_of_added (hn : n < calls.length) (part : MovedPart) (hpart : calls[n] = .add part) :
    ∀ p ∈ addedParts (calls.take n), p.name ≠ part.name := by
  have hnodup := nodup_addedParts_take hnames (n + 1)
  rw [addedParts_take_succ hn, hpart, List.map_append] at hnodup
  intro p hp heq
  exact (List.nodup_append.1 hnodup).2.2 p.name (List.mem_map_of_mem hp) part.name (by simp [addedParts]) heq

include hsum

/-- **Heaviest parts over a run.** -/
theorem collected_afterCalls : ∀ {n : ℕ}, n ≤ calls.length →
    (afterCalls requiredSumSize (calls.take n)).Collected (addedParts (calls.take n)) ∧
      ∀ hn : n < calls.length, (afterCalls requiredSumSize (calls.take n)).currentSizeSum + sizeSum (addedParts [calls[n]]) < 2 ^ 64 := by
  intro n hn
  have hcurrent : ∀ n ≤ calls.length, (afterCalls requiredSumSize (calls.take n)).Collected (addedParts (calls.take n)) →
      ∀ hn : n < calls.length, (afterCalls requiredSumSize (calls.take n)).currentSizeSum + sizeSum (addedParts [calls[n]]) < 2 ^ 64 := by
    intro n _ hcollected hlt
    have hle := sizeSum_subset KeyedSet.nodup_toList hcollected.mem_added
    have htotal : sizeSum (addedParts (calls.take (n + 1))) ≤ sizeSum (addedParts calls) :=
      sizeSum_sublist ((List.take_sublist (n + 1) calls).filterMap _)
    rw [addedParts_take_succ hlt, sizeSum_append] at htotal
    rw [hcollected.sum_eq]
    omega
  have hcollected : (afterCalls requiredSumSize (calls.take n)).Collected (addedParts (calls.take n)) := by
    induction n with
    | zero => exact collected_start requiredSumSize
    | succ n ih =>
      have hbefore := ih (by omega)
      rw [afterCalls_take_succ (by omega), addedParts_take_succ (by omega)]
      exact hbefore.call _ (name_ne_of_added hnames (by omega)) (hcurrent n (by omega) hbefore (by omega))
  exact ⟨hcollected, hcurrent n hn hcollected⟩

/-- **When the parts stay few and heavy**: in every state of a run they are a minimal set of heaviest parts exactly when
no call leaves something redundant behind. -/
theorem holdsHeaviest_run_iff : (∀ n ≤ calls.length, HoldsHeaviest (afterCalls requiredSumSize (calls.take n)) (addedParts (calls.take n))) ↔
    ∀ n, ∀ hn : n < calls.length, (calls[n]).LeavesNothingRedundant (afterCalls requiredSumSize (calls.take n)) := by
  have hnodup : ∀ n, (addedParts (calls.take n)).Nodup := fun n => (nodup_addedParts_take hnames n).of_map
  have hstep : ∀ n, ∀ hn : n < calls.length, (afterCalls requiredSumSize (calls.take n)).Minimal →
      ((afterCalls requiredSumSize (calls.take (n + 1))).Minimal ↔
        (calls[n]).LeavesNothingRedundant (afterCalls requiredSumSize (calls.take n))) := by
    intro n hn hminimal
    obtain ⟨hcollected, hlt⟩ := @collected_afterCalls requiredSumSize calls hnames hsum n hn.le
    rw [afterCalls_take_succ hn]
    exact hcollected.minimal_call hminimal _ (name_ne_of_added hnames hn) (hlt hn)
  constructor
  · intro hall n hn
    have hbefore := ((holdsHeaviest_iff (hnodup n)).1 (hall n hn.le)).2
    exact (hstep n hn hbefore).1 ((holdsHeaviest_iff (hnodup (n + 1))).1 (hall (n + 1) hn)).2
  · intro hleaves n hn
    refine (holdsHeaviest_iff (hnodup n)).2 ⟨(collected_afterCalls hnames hsum hn).1, ?_⟩
    induction n with
    | zero => exact fun kept hkept => absurd hkept (by simp [afterCalls, KeyedSet.mem_def])
    | succ n ih => exact (hstep n (by omega) (ih (by omega))).2 (hleaves n (by omega))

end Runs

/-! ## Selecting parts -/

theorem afterCalls_append_singleton (requiredSumSize : ℕ) (calls : List SizeCall) (call : SizeCall) :
    afterCalls requiredSumSize (calls ++ [call]) = (afterCalls requiredSumSize calls).call call := by
  unfold afterCalls
  rw [List.foldl_append]
  rfl

theorem mem_addedParts_of_mem_afterCalls {requiredSumSize : ℕ} : ∀ {calls : List SizeCall},
    part ∈ (afterCalls requiredSumSize calls).elems → part ∈ addedParts calls := by
  intro calls
  induction calls using List.reverseRecOn with
  | nil => exact fun h => absurd h (by simp [afterCalls, KeyedSet.mem_def])
  | append_singleton calls call ih =>
    rw [afterCalls_append_singleton, addedParts_append, List.mem_append]
    cases call with
    | decrease size =>
      intro h
      refine Or.inl (ih ?_)
      exact mem_of_mem_removeRedundantElements
        (s := { afterCalls requiredSumSize calls with
          requiredSizeSum := (afterCalls requiredSumSize calls).requiredSizeSum - min size (afterCalls requiredSumSize calls).requiredSizeSum }) h
    | add new =>
      have hemplace : part ∈ ((afterCalls requiredSumSize calls).emplace new).elems →
          part ∈ addedParts calls ∨ part ∈ addedParts [SizeCall.add new] := by
        intro h
        rcases KeyedSet.mem_emplace.1 h with h | ⟨rfl, -⟩
        · exact Or.inl (ih h)
        · exact Or.inr (List.mem_singleton.2 rfl)
      change part ∈ ((afterCalls requiredSumSize calls).add new).elems → _
      unfold LargestPartsWithRequiredSize.add
      split
      · exact hemplace
      · split
        · exact fun h => Or.inl (ih h)
        · exact fun h => hemplace (mem_of_mem_removeRedundantElements h)

section Select

variable {canMove reserveByTTL reserve : MovedPart → Bool} {needToMove : List (String × ℕ)} {dataParts : List MovedPart}
  {diskName : String}

theorem modifyDisk_map (f : LargestPartsWithRequiredSize → LargestPartsWithRequiredSize)
    (g : String × ℕ → LargestPartsWithRequiredSize) : ∀ {disks : List (String × ℕ)}, (disks.map Prod.fst).Nodup →
    modifyDisk diskName f (disks.map fun disk => (disk.1, g disk)) =
      disks.map fun disk => (disk.1, if disk.1 = diskName then f (g disk) else g disk) := by
  intro disks
  induction disks with
  | nil => exact fun _ => rfl
  | cons disk disks ih =>
    intro hnodup
    rw [List.map_cons, List.nodup_cons] at hnodup
    rw [List.map_cons, modifyDisk, List.map_cons]
    split
    · rename_i heq
      -- no later disk has the name
      refine congrArg _ (List.map_congr_left fun other hother => ?_)
      have hne : other.1 ≠ diskName := fun h => hnodup.1 (heq.trans h.symm ▸ List.mem_map_of_mem hother)
      rw [if_neg hne]
    · exact congrArg _ (ih hnodup.2)

theorem callsOn_append_singleton (part : MovedPart) : callsOn canMove reserveByTTL diskName (dataParts ++ [part]) =
    callsOn canMove reserveByTTL diskName dataParts ++ (if part.diskName = diskName ∧ canMove part then
      [if reserveByTTL part then SizeCall.decrease part.bytesOnDisk else .add part] else []) := by
  unfold callsOn
  rw [List.filterMap_append]
  refine congrArg _ ?_
  by_cases h : part.diskName = diskName ∧ canMove part = true
  · simp [h]
  · rw [if_neg h]
    simp [h]

theorem modifyDisk_callsOn (hdisks : (needToMove.map Prod.fst).Nodup) {part : MovedPart} (hmove : canMove part = true) :
    modifyDisk part.diskName (·.call (if reserveByTTL part then SizeCall.decrease part.bytesOnDisk else .add part))
        (needToMove.map fun disk => (disk.1, afterCalls disk.2 (callsOn canMove reserveByTTL disk.1 dataParts))) =
      needToMove.map fun disk => (disk.1, afterCalls disk.2 (callsOn canMove reserveByTTL disk.1 (dataParts ++ [part]))) := by
  rw [modifyDisk_map _ (fun disk : String × ℕ => afterCalls disk.2 (callsOn canMove reserveByTTL disk.1 dataParts)) hdisks]
  refine List.map_congr_left fun disk _ => ?_
  rw [callsOn_append_singleton]
  by_cases hdisk : disk.1 = part.diskName
  · have hcall : part.diskName = disk.1 ∧ canMove part = true := ⟨hdisk.symm, hmove⟩
    rw [if_pos hdisk, if_pos hcall, afterCalls_append_singleton]
  · rw [if_neg hdisk, if_neg fun h => hdisk h.1.symm, List.append_nil]

/-- The selection after the parts: what TTL rules move, and on each disk the set after the calls of its parts. -/
theorem foldl_selectPart (hdisks : (needToMove.map Prod.fst).Nodup) (dataParts : List MovedPart) :
    dataParts.foldl (MoveSelection.selectPart canMove reserveByTTL)
        { needToMove := needToMove.map fun disk => (disk.1, { requiredSizeSum := disk.2 }) } =
      ⟨(dataParts.filter fun part => canMove part && reserveByTTL part).map fun part => ⟨part, true⟩,
        needToMove.map fun disk => (disk.1, afterCalls disk.2 (callsOn canMove reserveByTTL disk.1 dataParts))⟩ := by
  induction dataParts using List.reverseRecOn with
  | nil => rfl
  | append_singleton dataParts part ih =>
    rw [List.foldl_append, ih, List.foldl_cons, List.foldl_nil]
    unfold MoveSelection.selectPart
    by_cases hmove : canMove part = true
    · have hcalls := @modifyDisk_callsOn canMove reserveByTTL needToMove dataParts hdisks part hmove
      by_cases httl : reserveByTTL part = true
      · rw [if_neg (by rw [hmove]; decide), if_pos httl]
        rw [if_pos httl] at hcalls
        exact congrArg₂ _ (by simp [hmove, httl]) hcalls
      · rw [if_neg (by rw [hmove]; decide), if_neg httl]
        rw [if_neg httl] at hcalls
        exact congrArg₂ _ (by simp [httl]) hcalls
    · rw [if_pos (by simpa using hmove)]
      refine congrArg₂ _ (by simp [hmove]) (List.map_congr_left fun disk _ => ?_)
      rw [callsOn_append_singleton, if_neg fun h => hmove h.2, List.append_nil]

theorem requiredSizeSum_afterCalls (requiredSumSize : ℕ) (dataParts : List MovedPart) :
    (afterCalls requiredSumSize (callsOn canMove reserveByTTL diskName dataParts)).requiredSizeSum =
      requiredSumSize - sizeSum (dataParts.filter fun part => part.diskName = diskName ∧ canMove part ∧ reserveByTTL part) := by
  induction dataParts using List.reverseRecOn with
  | nil => rfl
  | append_singleton dataParts part ih =>
    rw [callsOn_append_singleton, List.filter_append, sizeSum_append]
    by_cases hcall : part.diskName = diskName ∧ canMove part = true
    · rw [if_pos hcall, afterCalls_append_singleton]
      by_cases httl : reserveByTTL part = true
      · rw [if_pos httl]
        have hlowered : ∀ s : LargestPartsWithRequiredSize,
            (s.decreaseRequiredSizeAndRemoveRedundantParts part.bytesOnDisk).requiredSizeSum =
              s.requiredSizeSum - part.bytesOnDisk := fun s => by
          change s.requiredSizeSum - min part.bytesOnDisk s.requiredSizeSum = _
          omega
        have hsum : sizeSum ([part].filter fun part => part.diskName = diskName ∧ canMove part ∧ reserveByTTL part) =
            part.bytesOnDisk := by simp [hcall.1, hcall.2, httl]
        rw [hsum]
        change (LargestPartsWithRequiredSize.decreaseRequiredSizeAndRemoveRedundantParts _ _).requiredSizeSum = _
        rw [hlowered, ih]
        omega
      · rw [if_neg httl]
        have hkept : ∀ s : LargestPartsWithRequiredSize, (s.add part).requiredSizeSum = s.requiredSizeSum := fun s => by
          unfold LargestPartsWithRequiredSize.add
          split
          · rfl
          · split
            · rfl
            · rfl
        have hsum : sizeSum ([part].filter fun part => part.diskName = diskName ∧ canMove part ∧ reserveByTTL part) = 0 := by
          simp [httl]
        rw [hsum]
        change (LargestPartsWithRequiredSize.add _ _).requiredSizeSum = _
        rw [hkept, ih]
        omega
    · have hsum : sizeSum ([part].filter fun part => part.diskName = diskName ∧ canMove part ∧ reserveByTTL part) = 0 := by
        have hnot : ¬(part.diskName = diskName ∧ canMove part = true ∧ reserveByTTL part = true) := fun h => hcall ⟨h.1, h.2.1⟩
        simp [hnot]
      rw [if_neg hcall, List.append_nil, hsum, ih]
      omega

theorem addedParts_callsOn : addedParts (callsOn canMove reserveByTTL diskName dataParts) =
    dataParts.filter fun part => part.diskName = diskName ∧ canMove part ∧ ¬reserveByTTL part := by
  unfold addedParts callsOn
  rw [List.filterMap_filterMap, ← List.filterMap_eq_filter]
  refine List.filterMap_congr fun part _ => ?_
  by_cases h : part.diskName = diskName ∧ canMove part = true
  · by_cases httl : reserveByTTL part = true
    · simp [h, httl, Option.guard]
    · simp [h, httl]
  · by_cases hdisk : part.diskName = diskName
    · have hmove : ¬canMove part = true := fun hmove => h ⟨hdisk, hmove⟩
      simp [hmove, Option.guard]
    · simp [hdisk, Option.guard]

theorem addedParts_callsOn_sublist : (addedParts (callsOn canMove reserveByTTL diskName dataParts)).Sublist
    (dataParts.filter fun part => part.diskName = diskName) := by
  rw [addedParts_callsOn]
  refine List.monotone_filter_right dataParts fun part hpart => ?_
  exact decide_eq_true (of_decide_eq_true hpart).1

/-- What is selected: the parts that TTL rules move, and from each disk collected parts. -/
theorem selectPartsForMove_eq (hdisks : (needToMove.map Prod.fst).Nodup) (hasAnyMoveTTL : Bool) :
    selectPartsForMove needToMove hasAnyMoveTTL canMove reserveByTTL reserve dataParts = [] ∨
      selectPartsForMove needToMove hasAnyMoveTTL canMove reserveByTTL reserve dataParts =
        (dataParts.filter fun part => canMove part && reserveByTTL part).map (⟨·, true⟩) ++
          needToMove.flatMap fun disk =>
            ((afterCalls disk.2 (callsOn canMove reserveByTTL disk.1 dataParts)).elems.toList.takeWhile reserve).map (⟨·, false⟩) := by
  unfold selectPartsForMove
  split
  · exact Or.inl rfl
  · split
    · exact Or.inl rfl
    · refine Or.inr ?_
      simp only [foldl_selectPart hdisks, List.flatMap_map]

theorem mem_of_mem_takeWhile {requiredSumSize : ℕ} {part : MovedPart}
    (h : part ∈ (afterCalls requiredSumSize (callsOn canMove reserveByTTL diskName dataParts)).elems.toList.takeWhile reserve) :
    part ∈ dataParts ∧ part.diskName = diskName ∧ canMove part = true ∧ ¬reserveByTTL part = true := by
  have hadded := mem_addedParts_of_mem_afterCalls ((List.takeWhile_sublist reserve).subset h)
  rw [addedParts_callsOn, List.mem_filter] at hadded
  exact ⟨hadded.1, of_decide_eq_true hadded.2⟩

@[simp] theorem map_part_map (byTTL : Bool) (parts : List MovedPart) :
    (parts.map fun part => (⟨part, byTTL⟩ : MoveEntry)).map MoveEntry.part = parts := by
  simp [Function.comp_def]

/-- **A part is moved once.** -/
theorem nodup_selectPartsForMove (hdisks : (needToMove.map Prod.fst).Nodup) (hparts : dataParts.Nodup) (hasAnyMoveTTL : Bool) :
    ((selectPartsForMove needToMove hasAnyMoveTTL canMove reserveByTTL reserve dataParts).map MoveEntry.part).Nodup := by
  rcases @selectPartsForMove_eq canMove reserveByTTL reserve needToMove dataParts hdisks hasAnyMoveTTL with h | h
  · rw [h]
    exact List.nodup_nil
  rw [h, List.map_append, List.map_flatMap, List.nodup_append']
  simp only [map_part_map]
  refine ⟨hparts.filter _, ?_, ?_⟩
  · refine List.nodup_flatMap.2 ⟨fun disk _ => KeyedSet.nodup_toList.sublist (List.takeWhile_sublist reserve), ?_⟩
    -- parts of two disks are different
    refine (List.pairwise_map.1 hdisks).imp fun hne part hpart hpart' => ?_
    exact hne ((mem_of_mem_takeWhile hpart).2.1.symm.trans (mem_of_mem_takeWhile hpart').2.1)
  · intro part httl hpolicy
    obtain ⟨disk, -, hpart⟩ := List.mem_flatMap.1 hpolicy
    exact (mem_of_mem_takeWhile hpart).2.2.2 (Bool.and_eq_true _ _ ▸ (List.mem_filter.1 httl).2).2

theorem movedFrom_map_part (byTTL byTTL' : Bool) (parts : List MovedPart) :
    movedFrom (parts.map fun part => ⟨part, byTTL⟩) diskName byTTL' =
      if byTTL = byTTL' then parts.filter fun part => part.diskName = diskName else [] := by
  unfold movedFrom
  rw [List.filter_map]
  split
  · rename_i heq
    simp [Function.comp_def, heq]
  · rename_i hne
    simp [Function.comp_def, hne]

theorem movedFrom_append (entries entries' : List MoveEntry) (byTTL : Bool) :
    movedFrom (entries ++ entries') diskName byTTL = movedFrom entries diskName byTTL ++ movedFrom entries' diskName byTTL := by
  simp [movedFrom]

theorem movedFrom_flatMap {ι : Type*} (f : ι → List MoveEntry) (byTTL : Bool) (l : List ι) :
    movedFrom (l.flatMap f) diskName byTTL = l.flatMap fun i => movedFrom (f i) diskName byTTL := by
  induction l with
  | nil => rfl
  | cons i l ih => rw [List.flatMap_cons, movedFrom_append, ih, List.flatMap_cons]

theorem movedFrom_ttl (hdisks : (needToMove.map Prod.fst).Nodup) (hasAnyMoveTTL : Bool) :
    selectPartsForMove needToMove hasAnyMoveTTL canMove reserveByTTL reserve dataParts = [] ∨
      movedFrom (selectPartsForMove needToMove hasAnyMoveTTL canMove reserveByTTL reserve dataParts) diskName true =
        dataParts.filter fun part => part.diskName = diskName ∧ canMove part ∧ reserveByTTL part := by
  refine (@selectPartsForMove_eq canMove reserveByTTL reserve needToMove dataParts hdisks hasAnyMoveTTL).imp_right fun h => ?_
  rw [h, movedFrom_append, movedFrom_flatMap]
  simp only [movedFrom_map_part, if_true, Bool.false_eq_true, if_false, List.flatMap_eq_nil_iff.2 fun _ _ => rfl, List.append_nil]
  rw [List.filter_filter]
  refine List.filter_congr fun part _ => ?_
  simp

/-- By the policy the parts that a disk's set offers are moved, and nothing from another disk. -/
theorem movedFrom_policy (hdisks : (needToMove.map Prod.fst).Nodup) (hasAnyMoveTTL : Bool)
    (h : part ∈ movedFrom (selectPartsForMove needToMove hasAnyMoveTTL canMove reserveByTTL reserve dataParts) diskName false) :
    ∃ disk ∈ needToMove, disk.1 = diskName ∧
      movedFrom (selectPartsForMove needToMove hasAnyMoveTTL canMove reserveByTTL reserve dataParts) diskName false =
        (afterCalls disk.2 (callsOn canMove reserveByTTL disk.1 dataParts)).elems.toList.takeWhile reserve := by
  rcases @selectPartsForMove_eq canMove reserveByTTL reserve needToMove dataParts hdisks hasAnyMoveTTL with hselect | hselect
  · rw [hselect] at h
    exact absurd h List.not_mem_nil
  have hmoved : movedFrom (selectPartsForMove needToMove hasAnyMoveTTL canMove reserveByTTL reserve dataParts) diskName false =
      needToMove.flatMap fun disk => ((afterCalls disk.2 (callsOn canMove reserveByTTL disk.1 dataParts)).elems.toList.takeWhile
        reserve).filter fun part => part.diskName = diskName := by
    rw [hselect, movedFrom_append, movedFrom_flatMap, movedFrom_map_part]
    simp only [movedFrom_map_part, if_true, Bool.true_eq_false, if_false, List.nil_append]
  rw [hmoved] at h ⊢
  obtain ⟨disk, hdisk, hpart⟩ := List.mem_flatMap.1 h
  obtain ⟨hpart, hname⟩ := List.mem_filter.1 hpart
  have hdiskName : disk.1 = diskName := (mem_of_mem_takeWhile hpart).2.1.symm.trans (of_decide_eq_true hname)
  refine ⟨disk, hdisk, hdiskName, ?_⟩
  obtain ⟨before, after, rfl⟩ := List.append_of_mem hdisk
  rw [List.map_append, List.map_cons, List.nodup_append', List.nodup_cons] at hdisks
  obtain ⟨-, ⟨hafter, -⟩, hbefore⟩ := hdisks
  -- the sets of the other disks hold no part of this one
  have hother : ∀ other ∈ before ++ after, ((afterCalls other.2 (callsOn canMove reserveByTTL other.1 dataParts)).elems.toList.takeWhile
      reserve).filter (fun part => part.diskName = diskName) = [] := by
    intro other hother
    refine List.filter_eq_nil_iff.2 fun p hp hpname => ?_
    have heq : other.1 = disk.1 := (mem_of_mem_takeWhile hp).2.1.symm.trans ((of_decide_eq_true hpname).trans hdiskName.symm)
    rcases List.mem_append.1 hother with hother | hother
    · exact hbefore (heq ▸ List.mem_map_of_mem hother) List.mem_cons_self
    · exact hafter (heq ▸ List.mem_map_of_mem hother)
  rw [List.flatMap_append, List.flatMap_cons, List.flatMap_eq_nil_iff.2 fun other h => hother other (List.mem_append_left _ h),
    List.flatMap_eq_nil_iff.2 fun other h => hother other (List.mem_append_right _ h), List.nil_append, List.append_nil]
  exact List.filter_eq_self.2 fun p hp => decide_eq_true ((mem_of_mem_takeWhile hp).2.1.trans hdiskName)

/-- **The policy moves no more than needed** from a disk when no part leaves something redundant behind. -/
theorem needed_policy (hdisks : (needToMove.map Prod.fst).Nodup) (hnames : (dataParts.map MovedPart.name).Nodup)
    (hasAnyMoveTTL : Bool) {disk : String × ℕ} (hdisk : disk ∈ needToMove)
    (hsum : sizeSum (dataParts.filter fun part => part.diskName = disk.1) < 2 ^ 64)
    (hleaves : ∀ n, ∀ hn : n < (callsOn canMove reserveByTTL disk.1 dataParts).length,
      ((callsOn canMove reserveByTTL disk.1 dataParts)[n]).LeavesNothingRedundant
        (afterCalls disk.2 ((callsOn canMove reserveByTTL disk.1 dataParts).take n)))
    (hkept : kept ∈ movedFrom (selectPartsForMove needToMove hasAnyMoveTTL canMove reserveByTTL reserve dataParts) disk.1 false) :
    sizeSum (movedFrom (selectPartsForMove needToMove hasAnyMoveTTL canMove reserveByTTL reserve dataParts) disk.1 false) - kept.bytesOnDisk <
      disk.2 - sizeSum (movedFrom (selectPartsForMove needToMove hasAnyMoveTTL canMove reserveByTTL reserve dataParts) disk.1 true) := by
  obtain ⟨disk', hdisk', heq, hpolicy⟩ := movedFrom_policy hdisks hasAnyMoveTTL hkept
  obtain rfl : disk' = disk := List.inj_on_of_nodup_map hdisks hdisk' hdisk heq
  have hadded := @addedParts_callsOn_sublist canMove reserveByTTL dataParts disk'.1
  have haddedNames : ((addedParts (callsOn canMove reserveByTTL disk'.1 dataParts)).map MovedPart.name).Nodup :=
    hnames.sublist ((hadded.trans List.filter_sublist).map _)
  have haddedSum := (sizeSum_sublist hadded).trans_lt hsum
  have hall := (holdsHeaviest_run_iff haddedNames haddedSum).2 hleaves _ le_rfl
  rw [List.take_length] at hall
  obtain ⟨hcollected, hminimal⟩ := (holdsHeaviest_iff haddedNames.of_map).1 hall
  rcases @movedFrom_ttl canMove reserveByTTL reserve needToMove dataParts disk'.1 hdisks hasAnyMoveTTL with hnone | httl
  · rw [hnone] at hkept
    exact absurd hkept List.not_mem_nil
  rw [httl, hpolicy, ← requiredSizeSum_afterCalls]
  rw [hpolicy] at hkept
  have hneeded := hminimal kept ((List.takeWhile_sublist reserve).subset hkept)
  have hle := sizeSum_sublist (List.takeWhile_sublist (l := (afterCalls disk'.2 (callsOn canMove reserveByTTL disk'.1 dataParts)).elems.toList) reserve)
  rw [hcollected.sum_eq] at hneeded
  omega

end Select

/-! ## Few and heavy parts -/

/-- **When the chosen parts are few and heavy.** In every state of a run of calls the collected parts are a minimal set of
heaviest parts exactly when no part is added that makes an earlier one redundant while the set is still too small. A part
is listed for a move once, and when no part of a disk leaves something redundant behind, then the policy moves no more from
the disk than what the TTL rules leave to be freed. -/
theorem chosenParts_fewAndHeavy (requiredSumSize : ℕ) (calls : List SizeCall) (needToMove : List (String × ℕ)) (hasAnyMoveTTL : Bool)
    (canMove reserveByTTL reserve : MovedPart → Bool) (dataParts : List MovedPart) :
    (((addedParts calls).map MovedPart.name).Nodup →
        sizeSum (addedParts calls) < 2 ^ 64 →
        ((∀ n ≤ calls.length, HoldsHeaviest (afterCalls requiredSumSize (calls.take n)) (addedParts (calls.take n))) ↔
          ∀ n, ∀ hn : n < calls.length, (calls[n]).LeavesNothingRedundant (afterCalls requiredSumSize (calls.take n)))) ∧
      ((needToMove.map Prod.fst).Nodup → (dataParts.map MovedPart.name).Nodup →
        ((selectPartsForMove needToMove hasAnyMoveTTL canMove reserveByTTL reserve dataParts).map MoveEntry.part).Nodup ∧
          (∀ diskName, diskName ∉ needToMove.map Prod.fst →
            movedFrom (selectPartsForMove needToMove hasAnyMoveTTL canMove reserveByTTL reserve dataParts) diskName false = []) ∧
          ∀ disk ∈ needToMove, sizeSum (dataParts.filter fun part => part.diskName = disk.1) < 2 ^ 64 →
            (∀ n, ∀ hn : n < (callsOn canMove reserveByTTL disk.1 dataParts).length,
              ((callsOn canMove reserveByTTL disk.1 dataParts)[n]).LeavesNothingRedundant
                (afterCalls disk.2 ((callsOn canMove reserveByTTL disk.1 dataParts).take n))) →
            ∀ kept ∈ movedFrom (selectPartsForMove needToMove hasAnyMoveTTL canMove reserveByTTL reserve dataParts) disk.1 false,
              sizeSum (movedFrom (selectPartsForMove needToMove hasAnyMoveTTL canMove reserveByTTL reserve dataParts) disk.1 false) -
                  kept.bytesOnDisk <
                disk.2 - sizeSum (movedFrom (selectPartsForMove needToMove hasAnyMoveTTL canMove reserveByTTL reserve dataParts)
                  disk.1 true)) := by
  refine ⟨fun hnames hsum => holdsHeaviest_run_iff hnames hsum, ?_⟩
  intro hdisks hnames
  refine ⟨nodup_selectPartsForMove hdisks hnames.of_map hasAnyMoveTTL, fun diskName hother => ?_, ?_⟩
  · refine List.eq_nil_iff_forall_not_mem.2 fun part hpart => ?_
    obtain ⟨disk, hdisk, rfl, -⟩ := movedFrom_policy hdisks hasAnyMoveTTL hpart
    exact hother (List.mem_map_of_mem hdisk)
  · intro disk hdisk hsum hleaves kept hkept
    exact needed_policy hdisks hnames hasAnyMoveTTL hdisk hsum hleaves hkept

/-- Two lighter parts that are both needed, and a part that a TTL rule moves instead of one of them. -/
theorem chosenParts_fewAndHeavy_ttlMove :
    (∀ n ≤ 3, HoldsHeaviest
        (afterCalls 7 ([.add ⟨"all_1_1_0", "hot", 3⟩, .add ⟨"all_2_2_0", "hot", 5⟩, .decrease 4].take n))
        (addedParts ([.add ⟨"all_1_1_0", "hot", 3⟩, .add ⟨"all_2_2_0", "hot", 5⟩, .decrease 4].take n))) ∧
      selectPartsForMove [("hot", 7)] true (fun _ => true) (·.name = "all_3_3_0") (fun _ => true)
          [⟨"all_1_1_0", "hot", 3⟩, ⟨"all_2_2_0", "hot", 5⟩, ⟨"all_3_3_0", "hot", 4⟩] =
        [⟨⟨"all_3_3_0", "hot", 4⟩, true⟩, ⟨⟨"all_2_2_0", "hot", 5⟩, false⟩] ∧
      ((selectPartsForMove [("hot", 7)] true (fun _ => true) (·.name = "all_3_3_0") (fun _ => true)
        [⟨"all_1_1_0", "hot", 3⟩, ⟨"all_2_2_0", "hot", 5⟩, ⟨"all_3_3_0", "hot", 4⟩]).map MoveEntry.part).Nodup := by
  have h := chosenParts_fewAndHeavy 7 [.add ⟨"all_1_1_0", "hot", 3⟩, .add ⟨"all_2_2_0", "hot", 5⟩, .decrease 4] [("hot", 7)] true
    (fun _ => true) (·.name = "all_3_3_0") (fun _ => true)
    [⟨"all_1_1_0", "hot", 3⟩, ⟨"all_2_2_0", "hot", 5⟩, ⟨"all_3_3_0", "hot", 4⟩]
  exact ⟨(h.1 (by decide +kernel) (by decide +kernel)).2 (by decide +kernel), by decide +kernel,
    (h.2 (by decide +kernel) (by decide +kernel)).1⟩

/-- A heavy part follows a light one that was not enough: the light one is kept. -/
theorem not_holdsHeaviest_heavyPart : ¬∀ (requiredSumSize : ℕ) (calls : List SizeCall),
    ((addedParts calls).map MovedPart.name).Nodup → sizeSum (addedParts calls) < 2 ^ 64 →
    HoldsHeaviest (afterCalls requiredSumSize calls) (addedParts calls) := by
  intro hall
  rcases (hall 10 [.add ⟨"all_1_1_0", "hot", 5⟩, .add ⟨"all_2_2_0", "hot", 100⟩] (by decide +kernel) (by decide +kernel)).enough
    with ⟨-, hneeded⟩ | ⟨hlt, -⟩
  · exact absurd (hneeded ⟨"all_1_1_0", "hot", 5⟩ (KeyedSet.mem_def.2 (by decide +kernel))) (by decide +kernel)
  · exact absurd hlt (by decide +kernel)

end MergeTree
