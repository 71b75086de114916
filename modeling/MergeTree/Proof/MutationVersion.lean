import MergeTree.Spec.MutationVersion

/-!
# The mutation version is the greatest possible

The loop of `getExpectedMutationVersion` passes the mutations the part already has
(`searchVersion_old`) and then takes mutations while they are a batch (`searchVersion_taken`). A
part of a batch is a batch (`MutationBatch.prefix`), so where the loop stops no later version is
possible.
-/

namespace MergeTree

variable {limit : ℕ} {c v : ℤ} {mutations : PartitionMutations}

theorem mem_versionsOfPatches {patches : List PartInfo} {version : ℤ} :
    version ∈ versionsOfPatches patches ↔ ∃ patch ∈ patches, patch.getDataVersion = version := by
  have hfold : ∀ (patches : List PartInfo) (S : KeyedSet (id : ℤ → ℤ)),
      version ∈ patches.foldl (fun versions patch => versions.emplace patch.getDataVersion) S ↔
        version ∈ S ∨ ∃ patch ∈ patches, patch.getDataVersion = version := by
    intro patches
    induction patches with
    | nil => simp
    | cons patch patches ih =>
      intro S
      have hemplace : version ∈ S.emplace patch.getDataVersion ↔ version ∈ S ∨ patch.getDataVersion = version := by
        rw [KeyedSet.mem_emplace]
        constructor
        · rintro (h | ⟨rfl, -⟩)
          · exact .inl h
          · exact .inr rfl
        · rintro (h | rfl)
          · exact .inl h
          · by_cases h : patch.getDataVersion ∈ S
            · exact .inl h
            · exact .inr ⟨rfl, fun a ha heq => h ((show a = patch.getDataVersion from heq) ▸ ha)⟩
      rw [List.foldl_cons, ih, hemplace, List.exists_mem_cons_iff, or_assoc]
  rw [versionsOfPatches, hfold]
  simp

/-! ## Batches -/

namespace MutationBatch

variable {patches : List ℤ} {batch rest : List PartitionMutation} {mutation : PartitionMutation}

theorem singleton : MutationBatch limit patches [mutation] where
  few h := Nat.one_le_iff_ne_zero.2 h
  barrier m hm _ := by rw [List.mem_singleton.1 hm]
  alter m hm _ := by rw [List.mem_singleton.1 hm, List.getLast?_singleton]
  patches _ _ _ _ h := absurd h (by simp)

/-- **A batch begins with batches.** -/
theorem of_append (hsorted : (batch ++ rest).Pairwise fun a b => a.version < b.version) (hne : batch ≠ [])
    (h : MutationBatch limit patches (batch ++ rest)) : MutationBatch limit patches batch where
  few hlimit := by
    have hfew := h.few hlimit
    rw [List.length_append] at hfew
    omega
  barrier m hm hbarrier := by
    have hone := h.barrier m (List.mem_append_left _ hm) hbarrier
    rcases batch with _ | ⟨a, batch⟩
    · exact absurd rfl hne
    · rw [List.cons_append, List.cons.injEq, List.append_eq_nil_iff] at hone
      rw [hone.1, hone.2.1]
  alter m hm halter := by
    have hlast := h.alter m (List.mem_append_left _ hm) halter
    rcases List.eq_nil_or_concat rest with rfl | ⟨rest, last, rfl⟩
    · rwa [List.append_nil] at hlast
    · rw [List.concat_eq_append, ← List.append_assoc, List.getLast?_concat] at hlast
      have hlt := (List.pairwise_append.1 hsorted).2.2 m hm last (by simp)
      rw [Option.some.inj hlast] at hlt
      exact absurd hlt (lt_irrefl _)
  patches first hfirst last hlast htwo patch hpatch := by
    obtain ⟨last', hlast'⟩ : ∃ last', (batch ++ rest).getLast? = some last' :=
      ⟨_, List.getLast?_eq_some_getLast (List.append_ne_nil_of_left_ne_nil hne _)⟩
    have hle : last.version ≤ last'.version := by
      rcases List.eq_nil_or_concat rest with rfl | ⟨rest, end', rfl⟩
      · rw [List.append_nil] at hlast'
        rw [Option.some.inj (hlast.symm.trans hlast')]
      · rw [List.concat_eq_append, ← List.append_assoc, List.getLast?_concat] at hlast'
        rw [← Option.some.inj hlast']
        exact ((List.pairwise_append.1 hsorted).2.2 last (List.mem_of_getLast? hlast) end' (by simp)).le
    have hfirst' : first ∈ (batch ++ rest).head? := by
      rw [List.head?_append_of_ne_nil _ hne]
      exact hfirst
    rintro ⟨hlow, hhigh⟩
    refine h.patches first hfirst' last' hlast' ?_ patch hpatch ⟨hlow, hhigh.trans hle⟩
    rw [List.length_append]
    omega

/-- No mutation has to stop here. -/
structure Open (limit : ℕ) (batch : List PartitionMutation) : Prop where
  few : limit ≠ 0 → batch.length < limit
  barrier : ∀ mutation ∈ batch, ¬mutation.containBarrierCommand
  alter : ∀ mutation ∈ batch, ¬mutation.isAlterMutation

/-- **When a batch can be extended.** -/
theorem concat_iff {last : PartitionMutation} (hsorted : (batch ++ [mutation]).Pairwise fun a b => a.version < b.version)
    (hlast : batch.getLast? = some last) (h : MutationBatch limit patches batch) :
    MutationBatch limit patches (batch ++ [mutation]) ↔
      Open limit batch ∧ ¬mutation.containBarrierCommand ∧ ∀ patch ∈ patches, ¬(last.version ≤ patch ∧ patch ≤ mutation.version) := by
  have hne : batch ≠ [] := by
    rintro rfl
    cases hlast
  have hpos := List.length_pos_iff.2 hne
  have hmember := List.mem_of_getLast? hlast
  constructor
  · intro hnew
    refine ⟨⟨fun hlimit => ?_, fun m hm hbarrier => ?_, fun m hm halter => ?_⟩, fun hbarrier => ?_, ?_⟩
    · have hfew := hnew.few hlimit
      rw [List.length_append] at hfew
      exact hfew
    · have hone := congrArg List.length (hnew.barrier m (List.mem_append_left _ hm) hbarrier)
      simp only [List.length_append, List.length_singleton] at hone
      omega
    · have heq := hnew.alter m (List.mem_append_left _ hm) halter
      rw [List.getLast?_concat] at heq
      have hlt := (List.pairwise_append.1 hsorted).2.2 m hm mutation (List.mem_singleton.2 rfl)
      rw [Option.some.inj heq] at hlt
      exact lt_irrefl _ hlt
    · have hone := congrArg List.length (hnew.barrier mutation (List.mem_append_right _ (List.mem_singleton.2 rfl)) hbarrier)
      simp only [List.length_append, List.length_singleton] at hone
      omega
    · rintro patch hpatch ⟨hlow, hhigh⟩
      obtain ⟨first, hfirst⟩ : ∃ first, batch.head? = some first := ⟨_, List.head?_eq_some_head hne⟩
      have hle : first.version ≤ last.version := by
        obtain ⟨rest, rfl⟩ := List.head?_eq_some_iff.1 hfirst
        rcases List.mem_cons.1 hmember with rfl | hmember
        · exact le_rfl
        · exact ((List.pairwise_cons.1 (List.pairwise_append.1 hsorted).1).1 last hmember).le
      refine hnew.patches first ?_ mutation List.getLast?_concat ?_ patch hpatch ⟨hle.trans hlow, hhigh⟩
      · rw [List.head?_append_of_ne_nil _ hne]
        exact hfirst
      · rw [List.length_append]
        exact Nat.succ_le_succ hpos
  · rintro ⟨hopen, hbarrier, hpatches⟩
    refine ⟨fun hlimit => ?_, fun m hm hm' => ?_, fun m hm hm' => ?_, ?_⟩
    · rw [List.length_append]
      exact hopen.few hlimit
    · rcases List.mem_append.1 hm with hm | hm
      · exact absurd hm' (hopen.barrier m hm)
      · exact absurd hm' (List.mem_singleton.1 hm ▸ hbarrier)
    · rcases List.mem_append.1 hm with hm | hm
      · exact absurd hm' (hopen.alter m hm)
      · rw [List.mem_singleton.1 hm, List.getLast?_concat]
    · rintro first hfirst last' hlast' - patch hpatch ⟨hlow, hhigh⟩
      rw [List.getLast?_concat] at hlast'
      obtain rfl := Option.some.inj hlast'
      rw [List.head?_append_of_ne_nil _ hne] at hfirst
      -- the patch is not after the last mutation so far, so it would be among them
      have hlt : patch < last.version := by
        by_contra hge
        exact hpatches patch hpatch ⟨not_lt.1 hge, hhigh⟩
      have htwo : 2 ≤ batch.length := by
        by_contra hone
        obtain ⟨a, rfl⟩ := List.length_eq_one_iff.1 (show batch.length = 1 by omega)
        rw [Option.mem_def, List.head?_cons] at hfirst
        rw [List.getLast?_singleton] at hlast
        rw [← Option.some.inj hfirst, Option.some.inj hlast] at hlow
        omega
      exact h.patches first hfirst last hlast htwo patch hpatch ⟨hlow, hlt.le⟩

end MutationBatch

/-! ## The loop -/

section Loop

variable {patches : KeyedSet (id : ℤ → ℤ)}

/-- The loop passes the mutations that the part has, unless one is an ALTER that is not done. -/
theorem searchVersion_old {new : List PartitionMutation} : ∀ {old : List PartitionMutation} {search : VersionSearch},
    (∀ mutation ∈ old, mutation.version ≤ c) → search.maxVersion ≤ c → (∀ prev ∈ search.prevVersion, prev ≤ c) → search.mutationsCount = 0 →
    ((∀ mutation ∈ old, mutation.isAlterMutation → mutation.isDone) →
      ∃ search' : VersionSearch, search'.maxVersion ≤ c ∧ (∀ prev ∈ search'.prevVersion, prev ≤ c) ∧ search'.mutationsCount = 0 ∧
        searchVersion limit c patches (old ++ new) search = searchVersion limit c patches new search') ∧
    (¬(∀ mutation ∈ old, mutation.isAlterMutation → mutation.isDone) → (searchVersion limit c patches (old ++ new) search).1 ≤ c) := by
  intro old
  induction old with
  | nil => exact fun {search} _ hmax hprev hcount => ⟨fun _ => ⟨search, hmax, hprev, hcount, rfl⟩, fun h => absurd (List.forall_mem_nil _) h⟩
  | cons mutation old ih =>
    intro search hold hmax hprev hcount
    obtain ⟨hversion, hold⟩ := List.forall_mem_cons.1 hold
    have hbarrier : ¬(mutation.containBarrierCommand ∧ search.maxVersion ≠ mutation.version ∧ search.maxVersion > c) :=
      fun h => absurd h.2.2 (not_lt.2 hmax)
    have hpatches : ¬(search.prevVersion.any fun prev =>
        prev > c ∧ patches.lowerBound prev ≠ patches.upperBound mutation.version) = true := by
      intro h
      obtain ⟨prev, hmem, htest⟩ := (Option.any_eq_true _ _).1 h
      exact absurd (of_decide_eq_true htest).1 (not_lt.2 (hprev prev hmem))
    have hlimit : ¬(limit ≠ 0 ∧ search.mutationsCount = limit) := fun h => h.1 (h.2.symm.trans hcount)
    have hcurrent : ¬c < mutation.version := not_lt.2 hversion
    rw [List.cons_append, searchVersion, if_neg hbarrier, if_neg hpatches]
    simp only [gt_iff_lt, hcurrent, false_or, and_false, if_false, if_neg hlimit]
    by_cases hundone : mutation.isAlterMutation ∧ (!mutation.isDone) = true
    · rw [if_pos hundone]
      refine ⟨fun h => ?_, fun _ => hversion⟩
      have hdone := h mutation List.mem_cons_self hundone.1
      rw [hdone] at hundone
      exact absurd hundone.2 (by simp)
    · rw [if_neg hundone]
      have hthis : mutation.isAlterMutation → mutation.isDone := by
        intro halter
        by_contra hnot
        exact hundone ⟨halter, by simpa using hnot⟩
      have hrest := @ih { prevVersion := some mutation.version, maxVersion := mutation.version, mutationsCount := search.mutationsCount }
        hold hversion (fun prev hmem => (Option.some.inj hmem) ▸ hversion) hcount
      refine ⟨fun h => hrest.1 (List.forall_mem_cons.1 h).2, fun h => hrest.2 fun hall => h (List.forall_mem_cons.2 ⟨hthis, hall⟩)⟩

/-- The loop ended after the longest batch: the batch, the version and `alter_version` of its last
mutation, and what was left. -/
structure Searched (limit : ℕ) (patches : List ℤ) (new : List PartitionMutation) (found : ℤ × ℤ) (batch rest : List PartitionMutation) : Prop where
  split : new = batch ++ rest
  isBatch : MutationBatch limit patches batch
  ends : ∃ last, batch.getLast? = some last ∧ found = (last.version, last.alterVersion)
  longest : ∀ next ∈ rest.head?, ¬MutationBatch limit patches (batch ++ [next])

variable {new rest batch : List PartitionMutation} {mutation last : PartitionMutation}

theorem patches_between (h : last.version ≤ mutation.version) : patches.lowerBound last.version ≠ patches.upperBound mutation.version ↔
    ∃ patch ∈ patches.toList, last.version ≤ patch ∧ patch ≤ mutation.version :=
  KeyedSet.lowerBound_ne_upperBound h

/-- **A mutation is taken**: the loop ends with it, or goes on with an open batch. -/
theorem searchVersion_take {prev : Option ℤ} {maxVersion : ℤ} (hversion : c < mutation.version)
    (hbarrier : ¬(mutation.containBarrierCommand ∧ maxVersion ≠ mutation.version ∧ maxVersion > c))
    (hpatches : ¬(prev.any fun prev => prev > c ∧ patches.lowerBound prev ≠ patches.upperBound mutation.version) = true)
    (hfew : limit ≠ 0 → batch.length < limit) (hbatch : ∀ m ∈ batch, ¬m.containBarrierCommand ∧ ¬m.isAlterMutation) :
    (¬MutationBatch.Open limit (batch ++ [mutation]) ∧
        searchVersion limit c patches (mutation :: rest) ⟨prev, maxVersion, batch.length⟩ = (mutation.version, mutation.alterVersion)) ∨
      (MutationBatch.Open limit (batch ++ [mutation]) ∧ searchVersion limit c patches (mutation :: rest) ⟨prev, maxVersion, batch.length⟩ =
        searchVersion limit c patches rest ⟨some mutation.version, mutation.version, (batch ++ [mutation]).length⟩) := by
  have hnotAlter : ¬mutation.isAlterMutation → mutation.alterVersion = -1 := fun h => by simpa [PartitionMutation.isAlterMutation] using h
  have hlength : (batch ++ [mutation]).length = batch.length + 1 := by rw [List.length_append, List.length_singleton]
  rw [searchVersion, if_neg hbarrier, if_neg hpatches]
  simp only [gt_iff_lt, hversion, true_or, and_true, if_true]
  by_cases halter : mutation.isAlterMutation
  · rw [if_pos halter]
    exact .inl ⟨fun h => h.alter mutation (by simp) halter, rfl⟩
  rw [if_neg halter]
  by_cases hlimit : limit ≠ 0 ∧ batch.length + 1 = limit
  · rw [if_pos hlimit, hnotAlter halter]
    refine .inl ⟨fun h => ?_, rfl⟩
    have hlt := h.few hlimit.1
    omega
  rw [if_neg hlimit]
  by_cases hcontains : mutation.containBarrierCommand
  · rw [if_pos hcontains, hnotAlter halter]
    exact .inl ⟨fun h => h.barrier mutation (by simp) hcontains, rfl⟩
  rw [if_neg hcontains, hlength]
  refine .inr ⟨⟨fun hne => ?_, fun m hm => ?_, fun m hm => ?_⟩, rfl⟩
  · have hlt := hfew hne
    have hnot := not_and.1 hlimit hne
    omega
  · rcases List.mem_append.1 hm with hm | hm
    · exact (hbatch m hm).1
    · exact List.mem_singleton.1 hm ▸ hcontains
  · rcases List.mem_append.1 hm with hm | hm
    · exact (hbatch m hm).2
    · exact List.mem_singleton.1 hm ▸ halter

theorem searched_of_not_open (hsorted : (batch ++ rest).Pairwise fun a b => a.version < b.version) (hlast : batch.getLast? = some last)
    (hbatch : MutationBatch limit patches.toList batch) (hopen : ¬MutationBatch.Open limit batch) :
    Searched limit patches.toList (batch ++ rest) (last.version, last.alterVersion) batch rest where
  split := rfl
  isBatch := hbatch
  ends := ⟨last, hlast, rfl⟩
  longest := by
    intro next hnext hlonger
    obtain ⟨rest, rfl⟩ := List.head?_eq_some_iff.1 hnext
    rw [List.append_cons] at hsorted
    exact hopen ((MutationBatch.concat_iff (List.pairwise_append.1 hsorted).1 hlast hbatch).1 hlonger).1

/-- **From an open batch the loop takes mutations while they are a batch.** -/
theorem searchVersion_taken : ∀ {rest batch : List PartitionMutation} {last : PartitionMutation},
    (batch ++ rest).Pairwise (fun a b => a.version < b.version) → (∀ mutation ∈ batch ++ rest, c < mutation.version) →
    batch.getLast? = some last → MutationBatch limit patches.toList batch → MutationBatch.Open limit batch →
    ∃ batch' rest', Searched limit patches.toList (batch ++ rest)
      (searchVersion limit c patches rest ⟨some last.version, last.version, batch.length⟩) batch' rest' := by
  intro rest
  induction rest with
  | nil =>
    intro batch last hsorted hversions hlast hbatch hopen
    have halter : ¬last.isAlterMutation := hopen.alter last (List.mem_of_getLast? hlast)
    have hnone : last.alterVersion = -1 := by simpa [PartitionMutation.isAlterMutation] using halter
    refine ⟨batch, [], rfl, hbatch, ⟨last, hlast, ?_⟩, fun next hnext => nomatch hnext⟩
    rw [searchVersion, hnone]
  | cons mutation rest ih =>
    intro batch last hsorted hversions hlast hbatch hopen
    have hmember := List.mem_of_getLast? hlast
    have hversion : c < mutation.version := hversions mutation (by simp)
    have hlt : last.version < mutation.version := (List.pairwise_append.1 hsorted).2.2 last hmember mutation List.mem_cons_self
    have hlastVersion : c < last.version := hversions last (List.mem_append_left _ hmember)
    have hsorted' := hsorted
    rw [List.append_cons] at hsorted'
    have hiff := MutationBatch.concat_iff (List.pairwise_append.1 hsorted').1 hlast hbatch
    -- the batch ends where a barrier or a patch comes next
    have hend : ¬MutationBatch limit patches.toList (batch ++ [mutation]) → Searched limit patches.toList (batch ++ mutation :: rest)
        (last.version, -1) batch (mutation :: rest) := fun hnot =>
      { split := rfl
        isBatch := hbatch
        ends := ⟨last, hlast, by
          have halter : ¬last.isAlterMutation := hopen.alter last hmember
          have hnone : last.alterVersion = -1 := by simpa [PartitionMutation.isAlterMutation] using halter
          rw [hnone]⟩
        longest := fun next hnext => (Option.some.inj hnext) ▸ hnot }
    by_cases hbarrier : mutation.containBarrierCommand
    · refine ⟨batch, mutation :: rest, ?_⟩
      rw [searchVersion, if_pos ⟨hbarrier, hlt.ne, hlastVersion⟩]
      exact hend fun h => (hiff.1 h).2.1 hbarrier
    have hbetween : (some last.version).any (fun prev => decide (prev > c ∧ patches.lowerBound prev ≠ patches.upperBound mutation.version)) = true ↔
        ∃ patch ∈ patches.toList, last.version ≤ patch ∧ patch ≤ mutation.version := by
      rw [Option.any_some, decide_eq_true_iff, patches_between hlt.le]
      exact and_iff_right hlastVersion
    by_cases hpatches : ∃ patch ∈ patches.toList, last.version ≤ patch ∧ patch ≤ mutation.version
    · refine ⟨batch, mutation :: rest, ?_⟩
      rw [searchVersion, if_neg (fun h => hbarrier h.1), if_pos (hbetween.2 hpatches)]
      refine hend fun h => ?_
      obtain ⟨patch, hpatch, hrange⟩ := hpatches
      exact (hiff.1 h).2.2 patch hpatch hrange
    · have hnew : MutationBatch limit patches.toList (batch ++ [mutation]) :=
        hiff.2 ⟨hopen, hbarrier, fun patch hpatch hrange => hpatches ⟨patch, hpatch, hrange⟩⟩
      rw [List.append_cons]
      rcases @searchVersion_take limit c patches rest batch mutation (some last.version) last.version hversion (fun h => hbarrier h.1)
        (fun h => hpatches (hbetween.1 h)) hopen.few (fun m hm => ⟨hopen.barrier m hm, hopen.alter m hm⟩) with ⟨hclosed, heq⟩ | ⟨hopen', heq⟩
      · rw [heq]
        exact ⟨_, _, searched_of_not_open hsorted' List.getLast?_concat hnew hclosed⟩
      · rw [heq]
        refine ih hsorted' (fun m hm => hversions m ?_) List.getLast?_concat hnew hopen'
        rwa [List.append_cons]

theorem searchVersion_new {search : VersionSearch} (hsorted : (mutation :: rest).Pairwise fun a b => a.version < b.version)
    (hversions : ∀ m ∈ mutation :: rest, c < m.version) (hmax : search.maxVersion ≤ c ∨ search.maxVersion = mutation.version)
    (hprev : ∀ prev ∈ search.prevVersion, prev ≤ c) (hcount : search.mutationsCount = 0) :
    ∃ batch' rest', Searched limit patches.toList (mutation :: rest) (searchVersion limit c patches (mutation :: rest) search) batch' rest' := by
  obtain ⟨prev, maxVersion, count⟩ := search
  obtain rfl : count = 0 := hcount
  have hbarrier : ¬(mutation.containBarrierCommand ∧ maxVersion ≠ mutation.version ∧ maxVersion > c) := by
    rintro ⟨-, hne, hgt⟩
    exact hmax.elim (fun h => absurd hgt (not_lt.2 h)) hne
  have hpatches : ¬(prev.any fun prev => prev > c ∧ patches.lowerBound prev ≠ patches.upperBound mutation.version) = true := by
    intro h
    obtain ⟨version, hmem, htest⟩ := (Option.any_eq_true _ _).1 h
    exact absurd (of_decide_eq_true htest).1 (not_lt.2 (hprev version hmem))
  rcases @searchVersion_take limit c patches rest [] mutation prev maxVersion (hversions mutation List.mem_cons_self) hbarrier hpatches
    (fun hne => Nat.pos_of_ne_zero hne) (List.forall_mem_nil _) with ⟨hclosed, heq⟩ | ⟨hopen, heq⟩
  · rw [show (0 : ℕ) = ([] : List PartitionMutation).length from rfl, heq]
    exact ⟨[mutation], rest, searched_of_not_open hsorted rfl MutationBatch.singleton hclosed⟩
  · rw [show (0 : ℕ) = ([] : List PartitionMutation).length from rfl, heq]
    exact searchVersion_taken hsorted hversions rfl MutationBatch.singleton hopen

end Loop

/-! ## The greatest version -/

/-- The mutations of a partition, those that the part has first. -/
structure Divided (mutations : PartitionMutations) (c : ℤ) (old new : List PartitionMutation) : Prop where
  split : mutations.toList = old ++ new
  old_le : ∀ mutation ∈ old, mutation.version ≤ c
  new_lt : ∀ mutation ∈ new, c < mutation.version

theorem exists_divided (mutations : PartitionMutations) (c : ℤ) : ∃ old new, Divided mutations c old new := by
  refine ⟨mutations.toList.takeWhile fun mutation => mutation.version ≤ c, mutations.toList.dropWhile fun mutation => mutation.version ≤ c,
    List.takeWhile_append_dropWhile.symm, fun mutation h => ?_, fun mutation h => ?_⟩
  · have htest := List.mem_takeWhile_imp h
    exact of_decide_eq_true htest
  have hsorted := mutations.sorted.sublist (List.dropWhile_suffix fun mutation : PartitionMutation => decide (mutation.version ≤ c)).sublist
  cases hdrop : mutations.toList.dropWhile (fun mutation => decide (mutation.version ≤ c)) with
  | nil =>
    rw [hdrop] at h
    exact absurd h List.not_mem_nil
  | cons first rest =>
    have hfirst : ¬first.version ≤ c := by
      have hnot := List.head_dropWhile_not (fun mutation : PartitionMutation => decide (mutation.version ≤ c)) (l := mutations.toList)
        (by rw [hdrop]; exact List.cons_ne_nil _ _)
      simp only [hdrop, List.head_cons, decide_eq_false_iff_not] at hnot
      exact hnot
    rw [hdrop] at h hsorted
    rcases List.mem_cons.1 h with rfl | h
    · exact not_le.1 hfirst
    · exact (not_le.1 hfirst).trans ((List.pairwise_cons.1 hsorted).1 mutation h)

section Greatest

variable {old new batch rest : List PartitionMutation} {patches : List ℤ} {found : ℤ × ℤ}

theorem mutationsBetween_eq (hdivided : Divided mutations c old new) : mutationsBetween mutations c v = new.filter fun mutation => mutation.version ≤ v := by
  have hold : old.filter (fun mutation => decide (c < mutation.version ∧ mutation.version ≤ v)) = [] :=
    List.filter_eq_nil_iff.2 fun mutation h htest => absurd (of_decide_eq_true htest).1 (not_lt.2 (hdivided.old_le mutation h))
  rw [mutationsBetween, hdivided.split, List.filter_append, hold, List.nil_append]
  refine List.filter_congr fun mutation h => ?_
  rw [decide_eq_decide]
  exact and_iff_right (hdivided.new_lt mutation h)

theorem sorted_of_divided (hdivided : Divided mutations c old new) : new.Pairwise fun a b => a.version < b.version := by
  have hsorted := mutations.sorted
  rw [hdivided.split] at hsorted
  exact (List.pairwise_append.1 hsorted).2.1

/-- **Where the search ends is the greatest version that the part may be mutated to.** -/
theorem isGreatest_of_searched (hdivided : Divided mutations c old new)
    (hdone : ∀ mutation ∈ old, mutation.isAlterMutation → mutation.isDone) (h : Searched limit patches new found batch rest) :
    IsGreatest {v | MayMutateTo mutations limit patches c v} found.1 ∧ c < found.1 := by
  have hsorted := sorted_of_divided hdivided
  obtain ⟨last, hlast, rfl⟩ := h.ends
  have hmember := List.mem_of_getLast? hlast
  have hnew : last ∈ new := by
    rw [h.split]
    exact List.mem_append_left _ hmember
  have hlt : c < last.version := hdivided.new_lt last hnew
  rw [h.split] at hsorted
  obtain ⟨hsortedBatch, hsortedRest, hbefore⟩ := List.pairwise_append.1 hsorted
  have hbatchLe : ∀ mutation ∈ batch, mutation.version ≤ last.version := by
    obtain ⟨init, rfl⟩ := List.getLast?_eq_some_iff.1 hlast
    intro mutation hmutation
    rcases List.mem_append.1 hmutation with hmutation | hmutation
    · exact ((List.pairwise_append.1 hsortedBatch).2.2 mutation hmutation last (List.mem_singleton.2 rfl)).le
    · exact (congrArg PartitionMutation.version (List.mem_singleton.1 hmutation)).le
  have hbetween : mutationsBetween mutations c last.version = batch := by
    rw [mutationsBetween_eq hdivided, h.split, List.filter_append, List.filter_eq_self.2 fun m hm => decide_eq_true (hbatchLe m hm),
      List.filter_eq_nil_iff.2 fun m hm htest => absurd (of_decide_eq_true htest) (not_le.2 (hbefore last hmember m hm)), List.append_nil]
  refine ⟨⟨⟨⟨last, ?_, rfl⟩, hlt, fun mutation hmutation hle => ?_, hbetween ▸ h.isBatch⟩, fun w hw => ?_⟩, hlt⟩
  · rw [KeyedSet.mem_def, hdivided.split]
    exact List.mem_append_right _ hnew
  · rw [KeyedSet.mem_def, hdivided.split] at hmutation
    rcases List.mem_append.1 hmutation with hmutation | hmutation
    · exact hdone mutation hmutation
    · exact absurd hle (not_le.2 (hdivided.new_lt mutation hmutation))
  · -- a later version would take one mutation more
    by_contra hgt
    obtain ⟨target, htarget, rfl⟩ := hw.mem
    have hlater : last.version < target.version := not_le.1 hgt
    have htargetRest : target ∈ rest := by
      rw [KeyedSet.mem_def, hdivided.split, h.split] at htarget
      rcases List.mem_append.1 htarget with htarget | htarget
      · exact absurd (hlt.trans hlater) (not_lt.2 (hdivided.old_le target htarget))
      · rcases List.mem_append.1 htarget with htarget | htarget
        · exact absurd hlater (not_lt.2 (hbatchLe target htarget))
        · exact htarget
    cases rest with
    | nil => exact absurd htargetRest List.not_mem_nil
    | cons next rest =>
      have hnext : next.version ≤ target.version := by
        rcases List.mem_cons.1 htargetRest with rfl | hmem
        · exact le_rfl
        · exact ((List.pairwise_cons.1 hsortedRest).1 target hmem).le
      have hlonger : mutationsBetween mutations c target.version =
          batch ++ [next] ++ rest.filter fun mutation => mutation.version ≤ target.version := by
        rw [mutationsBetween_eq hdivided, h.split, List.filter_append,
          List.filter_eq_self.2 fun m hm => decide_eq_true ((hbatchLe m hm).trans hlater.le), List.filter_cons,
          if_pos (decide_eq_true hnext), List.append_assoc]
        rfl
      have hbatch := hw.batch
      rw [hlonger] at hbatch
      refine h.longest next rfl (MutationBatch.of_append ?_ (by simp) hbatch)
      rw [← hlonger]
      exact mutations.sorted.filter _

end Greatest

/-- The data versions of the patches of a partition. -/
def ReplicatedMergePredicate.patchVersions (predicate : ReplicatedMergePredicate) (partitionId : String) : List ℤ :=
  ((predicate.patchesByPartition partitionId).getD []).map PartInfo.getDataVersion

theorem MutationBatch.congr {patches patches' : List ℤ} (h : ∀ version, version ∈ patches ↔ version ∈ patches') {batch : List PartitionMutation} :
    MutationBatch limit patches batch ↔ MutationBatch limit patches' batch :=
  ⟨fun hb => ⟨hb.few, hb.barrier, hb.alter, fun first hfirst last hlast htwo patch hpatch => hb.patches first hfirst last hlast htwo patch ((h patch).2 hpatch)⟩,
    fun hb => ⟨hb.few, hb.barrier, hb.alter, fun first hfirst last hlast htwo patch hpatch => hb.patches first hfirst last hlast htwo patch ((h patch).1 hpatch)⟩⟩

theorem MayMutateTo.congr {patches patches' : List ℤ} (h : ∀ version, version ∈ patches ↔ version ∈ patches') :
    MayMutateTo mutations limit patches c v ↔ MayMutateTo mutations limit patches' c v :=
  ⟨fun hm => ⟨hm.mem, hm.lt, hm.done, (MutationBatch.congr h).1 hm.batch⟩, fun hm => ⟨hm.mem, hm.lt, hm.done, (MutationBatch.congr h).2 hm.batch⟩⟩

/-- What the loop finds in a partition with mutations: the greatest version, or one that the part already has. -/
theorem searchVersion_spec {first : PartitionMutation} {tail : List PartitionMutation} (hlist : mutations.toList = first :: tail)
    (patches : KeyedSet (id : ℤ → ℤ)) :
    (searchVersion limit c patches mutations.toList { maxVersion := first.version }).1 ≤ c ∧ (∀ v, ¬MayMutateTo mutations limit patches.toList c v) ∨
      c < (searchVersion limit c patches mutations.toList { maxVersion := first.version }).1 ∧
        IsGreatest {v | MayMutateTo mutations limit patches.toList c v} (searchVersion limit c patches mutations.toList { maxVersion := first.version }).1 ∧
        ∃ last ∈ mutations, searchVersion limit c patches mutations.toList { maxVersion := first.version } = (last.version, last.alterVersion) := by
  obtain ⟨old, new, hdivided⟩ := exists_divided mutations c
  have hfinish : ∀ {batch rest} {found : ℤ × ℤ}, (∀ mutation ∈ old, mutation.isAlterMutation → mutation.isDone) →
      Searched limit patches.toList new found batch rest → c < found.1 ∧ IsGreatest {v | MayMutateTo mutations limit patches.toList c v} found.1 ∧
        ∃ last ∈ mutations, found = (last.version, last.alterVersion) := by
    intro batch rest found hdone hsearched
    obtain ⟨hgreatest, hlt⟩ := isGreatest_of_searched hdivided hdone hsearched
    obtain ⟨last, hlast, heq⟩ := hsearched.ends
    refine ⟨hlt, hgreatest, last, ?_, heq⟩
    rw [KeyedSet.mem_def, hdivided.split, hsearched.split]
    exact List.mem_append_right _ (List.mem_append_left _ (List.mem_of_getLast? hlast))
  have hsorted := sorted_of_divided hdivided
  rw [hdivided.split]
  cases old with
  | nil =>
    have hnew : new = first :: tail := by rw [← hlist, hdivided.split, List.nil_append]
    obtain ⟨batch, rest, hsearched⟩ := @searchVersion_new limit c patches tail first { maxVersion := first.version } (hnew ▸ hsorted)
      (hnew ▸ hdivided.new_lt) (.inr rfl) (fun prev h => nomatch h) rfl
    rw [← hnew] at hsearched
    exact .inr (hfinish (List.forall_mem_nil _) hsearched)
  | cons mutation old =>
    have hfirst : mutation = first := by
      have heq := hdivided.split
      rw [hlist, List.cons_append, List.cons.injEq] at heq
      exact heq.1.symm
    have hle : first.version ≤ c := hfirst ▸ hdivided.old_le mutation List.mem_cons_self
    obtain ⟨hpassed, hstopped⟩ := @searchVersion_old limit c patches new (mutation :: old) { maxVersion := first.version } hdivided.old_le hle
      (fun prev h => nomatch h) rfl
    by_cases hdone : ∀ m ∈ mutation :: old, m.isAlterMutation → m.isDone
    · obtain ⟨search, hmax, hprev, hcount, heq⟩ := hpassed hdone
      rw [heq]
      cases hcases : new with
      | nil =>
        refine .inl ⟨hmax, fun v hv => ?_⟩
        obtain ⟨target, htarget, rfl⟩ := hv.mem
        rw [KeyedSet.mem_def, hdivided.split, hcases, List.append_nil] at htarget
        exact absurd hv.lt (not_lt.2 (hdivided.old_le target htarget))
      | cons next rest =>
        obtain ⟨batch, rest', hsearched⟩ := @searchVersion_new limit c patches rest next search (hcases ▸ hsorted)
          (hcases ▸ hdivided.new_lt) (.inl hmax) hprev hcount
        rw [← hcases] at hsearched ⊢
        exact .inr (hfinish hdone hsearched)
    · refine .inl ⟨hstopped hdone, fun v hv => hdone fun m hm => hv.done m ?_ (hdivided.old_le m hm)⟩
      rw [KeyedSet.mem_def, hdivided.split]
      exact List.mem_append_left _ hm

/-- **The choice of the mutation version.** For a part that is its own virtual part and is not waiting for a quorum, the version is
the greatest one that the part may be mutated to, with the `alter_version` of its mutation; there is none exactly when the part
may not be mutated at all. -/
theorem getExpectedMutationVersion_spec (predicate : ReplicatedMergePredicate) (name : String) (info : PartInfo)
    (hvirtual : predicate.virtualParts.getContainingPart info = name) :
    let mutations := (predicate.mutationsByPartition info.partitionId).getD .empty
    let c := getCurrentMutationVersion mutations info.getDataVersion
    let mayMutateTo := MayMutateTo mutations predicate.replicatedMaxMutationsInOneEntry (predicate.patchVersions info.partitionId) c
    (∀ v a, predicate.getExpectedMutationVersion name info = some (v, a) → IsGreatest {v | mayMutateTo v} v ∧
        ∃ mutation ∈ mutations, mutation.version = v ∧ a = if mutation.isAlterMutation then mutation.alterVersion else -1) ∧
      (predicate.getExpectedMutationVersion name info = none ↔ predicate.inprogressQuorumPart = some name ∨ ∀ v, ¬mayMutateTo v) := by
  intro mutations c mayMutateTo
  have hempty : mutations.toList = [] → ∀ v, ¬mayMutateTo v := by
    intro hnil v hv
    obtain ⟨target, htarget, -⟩ := hv.mem
    rw [KeyedSet.mem_def, hnil] at htarget
    exact List.not_mem_nil htarget
  unfold ReplicatedMergePredicate.getExpectedMutationVersion
  by_cases hquorum : predicate.inprogressQuorumPart = some name
  · rw [if_pos hquorum]
    exact ⟨fun v a h => (nomatch h), ⟨fun _ => .inl hquorum, fun _ => rfl⟩⟩
  rw [if_neg hquorum, if_neg (fun h => h hvirtual)]
  cases hpartition : predicate.mutationsByPartition info.partitionId with
  | none =>
    have hnil : mutations.toList = [] := by
      change ((predicate.mutationsByPartition info.partitionId).getD .empty).toList = []
      rw [hpartition]
      rfl
    exact ⟨fun v a h => (nomatch h), ⟨fun _ => .inr (hempty hnil), fun _ => rfl⟩⟩
  | some found =>
    have hmutations : mutations = found := by
      change (predicate.mutationsByPartition info.partitionId).getD .empty = found
      rw [hpartition]
      rfl
    dsimp only
    rw [← hmutations]
    split
    · next hnil => exact ⟨fun v a h => (nomatch h), ⟨fun _ => .inr (hempty hnil), fun _ => rfl⟩⟩
    · next first tail hlist =>
      set patches := versionsOfPatches ((predicate.patchesByPartition info.partitionId).getD []) with hpatches
      have hcongr : ∀ v, mayMutateTo v ↔ MayMutateTo mutations predicate.replicatedMaxMutationsInOneEntry patches.toList c v := by
        intro v
        refine MayMutateTo.congr fun version => ?_
        rw [← KeyedSet.mem_def, hpatches, mem_versionsOfPatches, ReplicatedMergePredicate.patchVersions, List.mem_map]
      have hset : {v | mayMutateTo v} = {v | MayMutateTo mutations predicate.replicatedMaxMutationsInOneEntry patches.toList c v} :=
        Set.ext hcongr
      rw [hset]
      rcases @searchVersion_spec predicate.replicatedMaxMutationsInOneEntry c mutations first tail hlist patches with ⟨hle, hnone⟩ | ⟨hlt, hgreatest, last, hlast, heq⟩
      · rw [if_pos hle]
        exact ⟨fun v a h => (nomatch h), ⟨fun _ => .inr fun v hv => hnone v ((hcongr v).1 hv), fun _ => rfl⟩⟩
      · rw [if_neg (not_le.2 hlt)]
        refine ⟨fun v a h => ?_, ⟨fun h => (nomatch h), fun h => ?_⟩⟩
        · obtain ⟨rfl, rfl⟩ := Prod.mk.inj (heq.symm.trans (Option.some.inj h))
          rw [heq] at hgreatest
          refine ⟨hgreatest, last, hlast, rfl, ?_⟩
          by_cases halter : last.isAlterMutation
          · rw [if_pos halter]
          · rw [if_neg halter]
            simpa [PartitionMutation.isAlterMutation] using halter
        · exact (h.resolve_left hquorum _ ((hcongr _).2 hgreatest.1)).elim

/-- An ordinary mutation and an ALTER after it are executed together. -/
theorem getExpectedMutationVersion_spec_alter :
    let info : PartInfo := { partitionId := "all", minBlock := 1, maxBlock := 1 }
    let mutations : PartitionMutations := ⟨[{ version := 2 }, { version := 3, alterVersion := 7 }, { version := 4 }], by decide⟩
    let predicate : ReplicatedMergePredicate :=
      { virtualParts := { partInfoToName := .emplace .empty (info, "all_1_1_0") }, mutationsByPartition := fun _ => some mutations }
    predicate.getExpectedMutationVersion "all_1_1_0" info = some (3, 7) ∧
      IsGreatest {v | MayMutateTo mutations 0 [] (getCurrentMutationVersion mutations 1) v} 3 := by
  intro info mutations predicate
  have hfound : predicate.getExpectedMutationVersion "all_1_1_0" info = some (3, 7) := by decide +kernel
  exact ⟨hfound, ((getExpectedMutationVersion_spec predicate "all_1_1_0" info (by decide +kernel)).1 3 7 hfound).1⟩

/-- A part that waits for a quorum is not mutated, though it may be mutated to version 2. -/
theorem not_getExpectedMutationVersion_quorum : ¬∀ (predicate : ReplicatedMergePredicate) (name : String) (info : PartInfo),
    predicate.virtualParts.getContainingPart info = name →
      (predicate.getExpectedMutationVersion name info = none ↔
        ∀ v, ¬MayMutateTo ((predicate.mutationsByPartition info.partitionId).getD .empty) predicate.replicatedMaxMutationsInOneEntry
          (predicate.patchVersions info.partitionId)
          (getCurrentMutationVersion ((predicate.mutationsByPartition info.partitionId).getD .empty) info.getDataVersion) v) := by
  intro h
  let info : PartInfo := { partitionId := "all", minBlock := 1, maxBlock := 1 }
  let mutations : PartitionMutations := ⟨[{ version := 2 }], List.pairwise_singleton _ _⟩
  let predicate : ReplicatedMergePredicate :=
    { inprogressQuorumPart := some "all_1_1_0"
      virtualParts := { partInfoToName := .emplace .empty (info, "all_1_1_0") }
      mutationsByPartition := fun _ => some mutations }
  have hnone := (h predicate "all_1_1_0" info (by decide +kernel)).1 (by decide +kernel)
  have hcurrent : getCurrentMutationVersion mutations info.getDataVersion = 0 := by decide +kernel
  refine hnone 2 ?_
  change MayMutateTo mutations 0 [] (getCurrentMutationVersion mutations info.getDataVersion) 2
  rw [hcurrent]
  refine ⟨⟨_, List.mem_singleton.2 rfl, rfl⟩, by decide, fun mutation hmutation hle => ?_, ?_⟩
  · rw [List.mem_singleton.1 hmutation] at hle
    exact absurd hle (by decide)
  · have hbetween : mutationsBetween mutations 0 2 = [{ version := 2 }] := by decide +kernel
    rw [hbetween]
    exact MutationBatch.singleton

end MergeTree
