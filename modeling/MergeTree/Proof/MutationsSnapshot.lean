import MergeTree.Spec.MutationsSnapshot

/-!
# What the snapshot of the mutations gives a part

* `scanMutations_eq`: a scan that stops early takes what a filter takes.
* `takeMutations_spec`: the snapshot of a partition and its counters.
* `getOnFlyMutationCommandsForPart_eq`: both scans together are the plain filter, except that mutations which are no ALTERs are
  left out as long as the snapshot has counted no UPDATE, DELETE or READ_COLUMN command.
-/

namespace MergeTree

/-- **Mutations with ALTERs in order**: their `alter_version` ascends with the versions. -/
def QueuedMutations.AltersAscend (mutations : QueuedMutations) : Prop :=
  mutations.toList.Pairwise fun a b => a.alterVersion ≠ -1 → b.alterVersion ≠ -1 → a.alterVersion ≤ b.alterVersion

namespace SnapshotParams

variable (params : SnapshotParams)

/-! ## A scan is a filter -/

/-- What a scan takes: ALTERs of metadata after `seenMetadataVersion` that the query knows, and if `wanted`, others after
`seenDataVersion`. -/
def Wanted (wanted : Bool) (seenDataVersion seenMetadataVersion : ℤ) (mutation : QueuedMutation) : Prop :=
  if mutation.alterVersion ≠ -1 then seenMetadataVersion < mutation.alterVersion ∧ mutation.alterVersion ≤ params.metadataVersion
  else wanted = true ∧ seenDataVersion < mutation.version

instance (wanted : Bool) (seenDataVersion seenMetadataVersion : ℤ) (mutation : QueuedMutation) :
    Decidable (params.Wanted wanted seenDataVersion seenMetadataVersion mutation) :=
  inferInstanceAs (Decidable (ite _ _ _))

variable {S : Type} {skip : QueuedMutation → Bool} {seenDataVersion seenMetadataVersion : ℤ} {take : S → QueuedMutation → S} {wanted : Bool}

/-- **A scan from the newest mutation on is a filter**: once all of a kind have been seen, the older ones of the kind are not
wanted either. -/
theorem scanMutations_eq {mutations : List QueuedMutation} {seenAllData seenAllMetadata : Bool} {taken : S}
    (hsorted : mutations.Pairwise fun a b => b.version < a.version ∧
      (a.alterVersion ≠ -1 → b.alterVersion ≠ -1 → b.alterVersion ≤ a.alterVersion))
    (hdata : seenAllData = true → ∀ m ∈ mutations, ¬ (wanted = true ∧ seenDataVersion < m.version))
    (hwanted : seenAllData = false → wanted = true)
    (hmetadata : seenAllMetadata = true → ∀ m ∈ mutations, m.alterVersion ≠ -1 →
      ¬ (seenMetadataVersion < m.alterVersion ∧ m.alterVersion ≤ params.metadataVersion)) :
    params.scanMutations skip seenDataVersion seenMetadataVersion take mutations seenAllData seenAllMetadata taken =
      (mutations.filter fun m => !skip m && decide (params.Wanted wanted seenDataVersion seenMetadataVersion m)).foldl take taken := by
  induction mutations generalizing seenAllData seenAllMetadata taken with
  | nil => rfl
  | cons mutation rest ih =>
    rw [List.pairwise_cons] at hsorted
    have hdata' := fun h => (List.forall_mem_cons.1 (hdata h)).2
    have hmetadata' := fun h => (List.forall_mem_cons.1 (hmetadata h)).2
    have hskipped : params.Wanted wanted seenDataVersion seenMetadataVersion mutation → ¬ skip mutation = true →
        ((mutation :: rest).filter fun m => !skip m && decide (params.Wanted wanted seenDataVersion seenMetadataVersion m)) =
          mutation :: rest.filter fun m => !skip m && decide (params.Wanted wanted seenDataVersion seenMetadataVersion m) :=
      fun h hskip => List.filter_cons_of_pos (by simp [h, hskip])
    have hpassed : (¬ params.Wanted wanted seenDataVersion seenMetadataVersion mutation ∨ skip mutation = true) →
        ((mutation :: rest).filter fun m => !skip m && decide (params.Wanted wanted seenDataVersion seenMetadataVersion m)) =
          rest.filter fun m => !skip m && decide (params.Wanted wanted seenDataVersion seenMetadataVersion m) := by
      intro h
      refine List.filter_cons_of_neg ?_
      rcases h with h | h <;> simp [h]
    unfold scanMutations
    by_cases hboth : (seenAllData && seenAllMetadata) = true
    · rw [if_pos hboth]
      obtain ⟨hd, hm⟩ := Bool.and_eq_true_iff.1 hboth
      have hnone : ((mutation :: rest).filter fun m => !skip m && decide (params.Wanted wanted seenDataVersion seenMetadataVersion m)) = [] := by
        refine List.filter_eq_nil_iff.2 fun m hmem h => ?_
        have hw : params.Wanted wanted seenDataVersion seenMetadataVersion m := by
          simpa using (Bool.and_eq_true_iff.1 h).2
        unfold Wanted at hw
        split_ifs at hw with halter
        · exact hmetadata hm m hmem halter hw
        · exact hdata hd m hmem hw
      rw [hnone]
      rfl
    · rw [if_neg hboth]
      by_cases hskip : skip mutation = true
      · rw [if_pos hskip, hpassed (Or.inr hskip)]
        exact ih hsorted.2 hdata' hwanted hmetadata'
      · rw [if_neg hskip]
        by_cases halter : mutation.alterVersion ≠ -1
        · have hiff : params.Wanted wanted seenDataVersion seenMetadataVersion mutation ↔
              seenMetadataVersion < mutation.alterVersion ∧ mutation.alterVersion ≤ params.metadataVersion := by
            unfold Wanted
            rw [if_pos halter]
          rw [if_pos halter]
          by_cases hpast : (seenAllMetadata || mutation.alterVersion > params.metadataVersion) = true
          · rw [if_pos hpast, hpassed (Or.inl fun h => ?_)]
            · exact ih hsorted.2 hdata' hwanted hmetadata'
            · rcases Bool.or_eq_true_iff.1 hpast with hm | hgt
              · exact hmetadata hm mutation List.mem_cons_self halter (hiff.1 h)
              · exact absurd (hiff.1 h).2 (not_le.2 (of_decide_eq_true hgt))
          · rw [if_neg hpast]
            by_cases hnew : mutation.alterVersion > seenMetadataVersion
            · have hle : mutation.alterVersion ≤ params.metadataVersion := by
                by_contra hgt
                exact hpast (by simp [not_le.1 hgt])
              rw [if_pos hnew, hskipped (hiff.2 ⟨hnew, hle⟩) hskip, List.foldl_cons]
              exact ih hsorted.2 hdata' hwanted hmetadata'
            · -- This ALTER is known to the part, and so are all that are older.
              rw [if_neg hnew, hpassed (Or.inl fun h => hnew (hiff.1 h).1)]
              refine ih hsorted.2 hdata' hwanted fun _ m hm hmalter h => ?_
              exact hnew (h.1.trans_le ((hsorted.1 m hm).2 halter hmalter))
        · have hiff : params.Wanted wanted seenDataVersion seenMetadataVersion mutation ↔ wanted = true ∧ seenDataVersion < mutation.version := by
            unfold Wanted
            rw [if_neg halter]
          rw [if_neg halter]
          cases hseen : seenAllData with
          | true =>
            simp only [Bool.not_true, Bool.false_eq_true, if_false]
            rw [hpassed (Or.inl fun h => hdata hseen mutation List.mem_cons_self (hiff.1 h))]
            subst hseen
            exact ih hsorted.2 hdata' hwanted hmetadata'
          | false =>
            simp only [Bool.not_false, if_true]
            by_cases hnew : mutation.version > seenDataVersion
            · rw [if_pos hnew, hskipped (hiff.2 ⟨hwanted hseen, hnew⟩) hskip, List.foldl_cons]
              subst hseen
              exact ih hsorted.2 hdata' hwanted hmetadata'
            · rw [if_neg hnew, hpassed (Or.inl fun h => hnew (hiff.1 h).2)]
              refine ih hsorted.2 (fun _ m hm h => ?_) (by simp) hmetadata'
              exact hnew (h.2.trans (hsorted.1 m hm).1)

/-! ## The snapshot -/

/-- A mutation that the snapshot of its partition has. -/
def Taken (partitionId : String) (mutation : QueuedMutation) : Prop :=
  mutation.version ≤ params.getMaxMutationVersionForPartition partitionId ∧
    params.Wanted (params.needDataMutations || params.needAlterMutations) (params.getMinPartDataVersionForPartition partitionId)
      params.minPartMetadataVersion mutation ∧
    params.needIncludeMutationToSnapshot mutation.commands = true

instance (partitionId : String) (mutation : QueuedMutation) : Decidable (params.Taken partitionId mutation) :=
  inferInstanceAs (Decidable (_ ∧ _ ∧ _))

end SnapshotParams

/-- A mutation that counts as a data mutation or as an alter mutation. -/
def QueuedMutation.changesData (mutation : QueuedMutation) : Bool :=
  mutation.commands.any fun command => isSupportedDataMutation command.type || isSupportedAlterMutation command.type

/-- The counters of data and of alter mutations are not negative. -/
def MutationCounters.Nonneg (counters : MutationCounters) : Prop := 0 ≤ counters.numData ∧ 0 ≤ counters.numAlter

/-- Data or alter mutations were counted. -/
def MutationCounters.Counted (counters : MutationCounters) : Prop := 0 < counters.numData ∨ 0 < counters.numAlter

/-- **One mutation more.** -/
theorem counted_increment {counters : MutationCounters} (h : counters.Nonneg) (mutation : QueuedMutation) :
    (incrementMutationsCounters counters mutation.commands).Nonneg ∧
      ((incrementMutationsCounters counters mutation.commands).Counted ↔ counters.Counted ∨ mutation.changesData = true) := by
  have hsplit : mutation.changesData = true ↔ (mutation.commands.any fun command => isSupportedDataMutation command.type) = true ∨
      (mutation.commands.any fun command => isSupportedAlterMutation command.type) = true := by
    unfold QueuedMutation.changesData
    simp only [List.any_eq_true, Bool.or_eq_true, and_or_left, exists_or]
  obtain ⟨hd, ha⟩ := h
  rw [hsplit]
  unfold incrementMutationsCounters MutationCounters.Nonneg MutationCounters.Counted
  simp only
  refine ⟨⟨?_, ?_⟩, ?_⟩
  · split_ifs <;> omega
  · split_ifs <;> omega
  · split_ifs with h1 h2 h2 <;> simp only [h1, h2, Bool.false_eq_true, or_true, or_false, iff_true] <;> omega

namespace SnapshotParams

variable (params : SnapshotParams)

/-- **Mutations are included** in the snapshot of a partition and in the counters. -/
theorem foldl_includeMutation {l : List QueuedMutation} (hl : l.Pairwise fun a b => a.version ≠ b.version) {q : QueuedMutations}
    (hq : ∀ a ∈ q, ∀ m ∈ l, a.version ≠ m.version) {counters : MutationCounters} (hc : counters.Nonneg) :
    (∀ m, m ∈ (l.foldl params.includeMutation (q, counters)).1 ↔
      m ∈ q ∨ (m ∈ l ∧ params.needIncludeMutationToSnapshot m.commands = true)) ∧
    (l.foldl params.includeMutation (q, counters)).2.Nonneg ∧
    ((l.foldl params.includeMutation (q, counters)).2.Counted ↔
      counters.Counted ∨ ∃ m ∈ l, params.needIncludeMutationToSnapshot m.commands = true ∧ m.changesData = true) := by
  induction l generalizing q counters with
  | nil => simp [hc]
  | cons a l ih =>
    rw [List.pairwise_cons] at hl
    rw [List.foldl_cons]
    by_cases hneed : params.needIncludeMutationToSnapshot a.commands = true
    · have hstep : params.includeMutation (q, counters) a = (q.emplace a, incrementMutationsCounters counters a.commands) := if_pos hneed
      have hmem : ∀ m, m ∈ q.emplace a ↔ m ∈ q ∨ m = a := fun m => by
        rw [KeyedSet.mem_emplace]
        exact or_congr_right ⟨fun h => h.1, fun h => ⟨h, fun b hb => hq b hb a List.mem_cons_self⟩⟩
      obtain ⟨hnonneg, hcounted⟩ := counted_increment hc a
      have hq' : ∀ b ∈ q.emplace a, ∀ m ∈ l, b.version ≠ m.version := by
        intro b hb m hm
        rcases (hmem b).1 hb with hb | rfl
        · exact hq b hb m (List.mem_cons_of_mem _ hm)
        · exact hl.1 m hm
      obtain ⟨hin, hnonneg', hcounted'⟩ := ih hl.2 hq' hnonneg
      rw [hstep]
      refine ⟨fun m => ?_, hnonneg', ?_⟩
      · rw [hin, hmem, List.mem_cons]
        constructor
        · rintro ((hm | rfl) | hm)
          · exact Or.inl hm
          · exact Or.inr ⟨Or.inl rfl, hneed⟩
          · exact Or.inr ⟨Or.inr hm.1, hm.2⟩
        · rintro (hm | ⟨rfl | hm, hmneed⟩)
          · exact Or.inl (Or.inl hm)
          · exact Or.inl (Or.inr rfl)
          · exact Or.inr ⟨hm, hmneed⟩
      · rw [hcounted', hcounted, List.exists_mem_cons_iff, or_assoc]
        simp [hneed]
    · have hstep : params.includeMutation (q, counters) a = (q, counters) := if_neg hneed
      obtain ⟨hin, hnonneg', hcounted'⟩ := ih hl.2 (fun b hb m hm => hq b hb m (List.mem_cons_of_mem _ hm)) hc
      rw [hstep]
      refine ⟨fun m => ?_, hnonneg', ?_⟩
      · rw [hin, List.mem_cons]
        constructor
        · rintro (hm | hm)
          · exact Or.inl hm
          · exact Or.inr ⟨Or.inr hm.1, hm.2⟩
        · rintro (hm | ⟨rfl | hm, hmneed⟩)
          · exact Or.inl hm
          · exact absurd hmneed hneed
          · exact Or.inr ⟨hm, hmneed⟩
      · rw [hcounted', List.exists_mem_cons_iff]
        simp [hneed]

theorem pairwise_reverse {mutations : QueuedMutations} (h : mutations.AltersAscend) :
    mutations.toList.reverse.Pairwise fun a b => b.version < a.version ∧
      (a.alterVersion ≠ -1 → b.alterVersion ≠ -1 → b.alterVersion ≤ a.alterVersion) := by
  rw [List.pairwise_reverse]
  exact (mutations.sorted.and h).imp fun ⟨hlt, hle⟩ => ⟨hlt, fun ha hb => hle hb ha⟩

/-- **The snapshot of a partition.** -/
theorem takeMutations_spec {mutations : QueuedMutations} (h : mutations.AltersAscend) (partitionId : String) {counters : MutationCounters}
    (hc : counters.Nonneg) :
    let taken := params.takeMutations (params.getMinPartDataVersionForPartition partitionId)
      (params.getMaxMutationVersionForPartition partitionId) mutations.toList.reverse
      (!params.needDataMutations && !params.needAlterMutations) (decide (params.minPartMetadataVersion ≥ params.metadataVersion))
      (.empty, counters)
    (∀ m, m ∈ taken.1 ↔ m ∈ mutations ∧ params.Taken partitionId m) ∧ taken.2.Nonneg ∧
      (taken.2.Counted ↔ counters.Counted ∨ ∃ m ∈ mutations.toList, params.Taken partitionId m ∧ m.changesData = true) := by
  intro taken
  have hscan := @scanMutations_eq params _ (fun m => m.version > params.getMaxMutationVersionForPartition partitionId)
    (params.getMinPartDataVersionForPartition partitionId) params.minPartMetadataVersion params.includeMutation
    (params.needDataMutations || params.needAlterMutations) mutations.toList.reverse
    (!params.needDataMutations && !params.needAlterMutations) (decide (params.minPartMetadataVersion ≥ params.metadataVersion))
    ((.empty : QueuedMutations), counters)
    (pairwise_reverse h) (fun hnone m _ hm => by simp_all) (fun hsome => by
      cases hd : params.needDataMutations <;> cases ha : params.needAlterMutations <;> simp_all)
    (fun hall m _ _ hm => by
      have := of_decide_eq_true hall
      omega)
  have htaken : taken = _ := hscan
  rw [htaken]
  set l := mutations.toList.reverse.filter _ with hl
  have hmem : ∀ m, m ∈ l ∧ params.needIncludeMutationToSnapshot m.commands = true ↔ m ∈ mutations ∧ params.Taken partitionId m := by
    intro m
    rw [hl, List.mem_filter, List.mem_reverse]
    unfold Taken
    simp only [Bool.and_eq_true, Bool.not_eq_true', decide_eq_false_iff_not, not_lt, decide_eq_true_eq, gt_iff_lt]
    rw [KeyedSet.mem_def]
    tauto
  have hdistinct : l.Pairwise fun a b => a.version ≠ b.version :=
    ((pairwise_reverse h).imp fun hlt => hlt.1.ne').sublist List.filter_sublist
  obtain ⟨hin, hnonneg, hcounted⟩ := params.foldl_includeMutation hdistinct (q := .empty) (fun a ha => absurd ha (KeyedSet.notMem_empty a)) hc
  refine ⟨fun m => ?_, hnonneg, ?_⟩
  · rw [hin, ← hmem]
    simp
  · rw [hcounted]
    refine or_congr_right (exists_congr fun m => ?_)
    rw [← and_assoc, ← and_assoc, hmem m, KeyedSet.mem_def]

/-- **A snapshot of partitions**: of each that is not one of patch parts, the mutations that are taken, and the counters of all. -/
structure Snapshotted (partitions : List (String × QueuedMutations)) (snapshot : MutationsSnapshot) : Prop where
  params_eq : snapshot.params = params
  find_some : ∀ partition ∈ partitions, getKind partition.1 ≠ .patch → ∃ q, snapshot.mutationsByPartition.find partition.1 = some (partition.1, q) ∧
    ∀ m, m ∈ q ↔ m ∈ partition.2 ∧ params.Taken partition.1 m
  find_none : ∀ partitionId, (∀ partition ∈ partitions, partition.1 ≠ partitionId) → snapshot.mutationsByPartition.find partitionId = none
  nonneg : snapshot.counters.Nonneg
  counted : snapshot.counters.Counted ↔
    ∃ partition ∈ partitions, getKind partition.1 ≠ .patch ∧ ∃ m ∈ partition.2.toList, params.Taken partition.1 m ∧ m.changesData = true

variable {params} in
/-- **One partition more.** -/
theorem Snapshotted.takePartition {partitions : List (String × QueuedMutations)} {snapshot : MutationsSnapshot}
    (h : params.Snapshotted partitions snapshot) {partition : String × QueuedMutations} (hascend : partition.2.AltersAscend)
    (hnew : ∀ other ∈ partitions, other.1 ≠ partition.1) :
    params.Snapshotted (partitions ++ [partition]) (params.takePartition snapshot partition) := by
  have hsplit : ∀ p : String × QueuedMutations → Prop, (∃ other ∈ partitions ++ [partition], p other) ↔ (∃ other ∈ partitions, p other) ∨ p partition :=
    fun p => by simp [or_and_right, exists_or]
  unfold SnapshotParams.takePartition
  by_cases hpatch : getKind partition.1 = .patch
  · rw [if_pos hpatch]
    refine ⟨h.params_eq, fun other hother hkind => ?_, fun partitionId hnone => ?_, h.nonneg, ?_⟩
    · rcases List.mem_append.1 hother with hother | hother
      · exact h.find_some other hother hkind
      · exact absurd (List.mem_singleton.1 hother ▸ hpatch) hkind
    · exact h.find_none partitionId fun other hother => hnone other (List.mem_append_left _ hother)
    · rw [hsplit, h.counted]
      simp [hpatch]
  · rw [if_neg hpatch]
    obtain ⟨hmem, hnonneg, hcounted⟩ := params.takeMutations_spec hascend partition.1 h.nonneg
    have hunknown : snapshot.mutationsByPartition.find partition.1 = none := h.find_none _ hnew
    refine ⟨h.params_eq, fun other hother hkind => ?_, fun partitionId hnone => ?_, hnonneg, ?_⟩
    · simp only
      rw [KeyedSet.find_emplace]
      rcases List.mem_append.1 hother with hother | hother
      · rw [if_neg (hnew other hother)]
        exact h.find_some other hother hkind
      · obtain rfl := List.mem_singleton.1 hother
        rw [if_pos rfl, hunknown, Option.getD_none]
        exact ⟨_, rfl, hmem⟩
    · simp only
      rw [KeyedSet.find_emplace, if_neg fun heq => hnone partition (by simp) heq.symm]
      exact h.find_none partitionId fun other hother => hnone other (List.mem_append_left _ hother)
    · rw [hsplit]
      simp only [hcounted, h.counted]
      exact or_congr_right ⟨fun hm => ⟨hpatch, hm⟩, fun hm => hm.2⟩

/-- **The snapshot of all partitions.** -/
theorem foldl_takePartition {mutationsByPartition : MutationsByPartition} (hascend : ∀ partition ∈ mutationsByPartition.toList, partition.2.AltersAscend) :
    params.Snapshotted mutationsByPartition.toList (mutationsByPartition.toList.foldl params.takePartition { params := params }) := by
  have hrun : ∀ (rest done : List (String × QueuedMutations)) (snapshot : MutationsSnapshot), params.Snapshotted done snapshot →
      (∀ partition ∈ rest, partition.2.AltersAscend) → (done ++ rest).Pairwise (fun a b => a.1 ≠ b.1) →
      params.Snapshotted (done ++ rest) (rest.foldl params.takePartition snapshot) := by
    intro rest
    induction rest with
    | nil => exact fun done snapshot h _ _ => by simpa using h
    | cons partition rest ih =>
      intro done snapshot h hascend hdistinct
      rw [List.forall_mem_cons] at hascend
      have hstep := h.takePartition hascend.1 fun other hother =>
        (List.pairwise_append.1 hdistinct).2.2 other hother partition List.mem_cons_self
      rw [List.append_cons] at hdistinct ⊢
      exact ih _ _ hstep hascend.2 hdistinct
  refine hrun mutationsByPartition.toList [] _ ⟨rfl, nofun, fun _ _ => rfl, ⟨le_rfl, le_rfl⟩, ?_⟩ hascend
    (mutationsByPartition.sorted.imp fun hlt => hlt.ne)
  simp [MutationCounters.Counted]

/-! ## The commands for a part -/

/-- The snapshot counts a data mutation or an alter mutation. -/
def countsData (mutationsByPartition : MutationsByPartition) : Bool :=
  mutationsByPartition.toList.any fun partition =>
    decide (getKind partition.1 ≠ .patch) && partition.2.toList.any fun m => decide (params.Taken partition.1 m) && m.changesData

theorem reverse_foldl_addSupportedCommands (snapshot : MutationsSnapshot) (l : List QueuedMutation) (result : List OnFlyCommand) :
    (l.foldl (fun result m => snapshot.addSupportedCommands m.commands m.version result) result).reverse =
      l.reverse.flatMap snapshot.params.supportedCommands ++ result.reverse := by
  have hadd : ∀ (m : QueuedMutation) (result : List OnFlyCommand), snapshot.addSupportedCommands m.commands m.version result =
      result ++ (snapshot.params.supportedCommands m).reverse := by
    intro m result
    have hrun : ∀ (commands : List OnFlyCommand) (result : List OnFlyCommand),
        commands.foldl (fun result command => if snapshot.params.supports command then
          result ++ [{ command with mutationVersion := (m.version % 2 ^ 64).toNat }] else result) result =
        result ++ (commands.filter snapshot.params.supports).map fun command => { command with mutationVersion := (m.version % 2 ^ 64).toNat } := by
      intro commands
      induction commands with
      | nil => simp
      | cons command commands ih =>
        intro result
        rw [List.foldl_cons, ih]
        by_cases hsupported : snapshot.params.supports command = true
        · rw [if_pos hsupported, List.filter_cons_of_pos hsupported, List.map_cons, List.append_assoc]
          rfl
        · rw [if_neg hsupported, List.filter_cons_of_neg hsupported]
    unfold MutationsSnapshot.addSupportedCommands SnapshotParams.supportedCommands
    rw [hrun, List.filter_reverse, List.map_reverse]
  induction l generalizing result with
  | nil => simp
  | cons m l ih =>
    rw [List.foldl_cons, ih, hadd, List.reverse_append, List.reverse_reverse, List.reverse_cons, List.flatMap_append, List.append_assoc]
    simp

theorem flatMap_filter_congr {α β : Type} {f : α → List β} {p q : α → Bool} {l : List α} (h : ∀ a ∈ l, f a ≠ [] → p a = q a) :
    (l.filter p).flatMap f = (l.filter q).flatMap f := by
  induction l with
  | nil => rfl
  | cons a l ih =>
    rw [List.forall_mem_cons] at h
    have hrest := ih h.2
    by_cases hempty : f a = []
    · rw [List.filter_cons, List.filter_cons]
      split_ifs <;> simp [hempty, hrest]
    · rw [List.filter_cons, List.filter_cons, h.1 hempty]
      split_ifs <;> simp [hrest]

theorem needInclude_of_supported {m : QueuedMutation} (h : params.supportedCommands m ≠ []) :
    params.needIncludeMutationToSnapshot m.commands = true := by
  unfold supportedCommands at h
  have hne : m.commands.filter params.supports ≠ [] := fun hnil => h (by rw [hnil]; rfl)
  obtain ⟨command, hcommand⟩ := List.exists_mem_of_ne_nil _ hne
  obtain ⟨hmem, hsupported⟩ := List.mem_filter.1 hcommand
  unfold needIncludeMutationToSnapshot
  refine List.any_eq_true.2 ⟨command, hmem, ?_⟩
  unfold supports at hsupported
  simp only [Bool.or_eq_true] at hsupported ⊢
  tauto

/-- The mutations of a partition. -/
def mutationsOf (mutationsByPartition : MutationsByPartition) (partitionId : String) : QueuedMutations :=
  ((mutationsByPartition.find partitionId).map Prod.snd).getD .empty

/-- **The scan for a part**, over a snapshot of its partition. -/
theorem takeCommands_eq {mutations q : QueuedMutations} (hascend : mutations.AltersAscend) {info : PartInfo} {partMetadataVersion : ℤ}
    (hq : ∀ m, m ∈ q ↔ m ∈ mutations ∧ params.Taken info.partitionId m) {snapshot : MutationsSnapshot} (hparams : snapshot.params = params)
    (hdata : params.getMinPartDataVersionForPartition info.partitionId ≤ info.getDataVersion)
    (hmetadata : params.minPartMetadataVersion ≤ partMetadataVersion) {counted : Bool} :
    (snapshot.takeCommands info.getDataVersion partMetadataVersion q.toList.reverse (!counted)
        (decide (partMetadataVersion ≥ snapshot.params.metadataVersion))).reverse =
      params.neededCommands ((params.needDataMutations || params.needAlterMutations) && counted) info partMetadataVersion mutations := by
  subst hparams
  have hlist : q.toList = mutations.toList.filter fun m => snapshot.params.Taken info.partitionId m :=
    KeyedSet.toList_eq_of_mem (mutations.sorted.sublist List.filter_sublist) fun m => by
      rw [hq, List.mem_filter, KeyedSet.mem_def]
      simp
  have hascend' : q.AltersAscend := by
    unfold QueuedMutations.AltersAscend
    rw [hlist]
    exact hascend.sublist List.filter_sublist
  have hscan := @scanMutations_eq snapshot.params _ (fun _ => false) info.getDataVersion partMetadataVersion
    (fun result m => snapshot.addSupportedCommands m.commands m.version result) counted q.toList.reverse (!counted)
    (decide (partMetadataVersion ≥ snapshot.params.metadataVersion)) [] (pairwise_reverse hascend')
    (fun hnone m _ hm => by simp_all) (fun hsome => by simpa using hsome) (fun hall m _ _ hm => by
      have := of_decide_eq_true hall
      omega)
  unfold MutationsSnapshot.takeCommands
  rw [hscan, reverse_foldl_addSupportedCommands, ← List.filter_reverse, List.reverse_reverse, List.reverse_nil, List.append_nil, hlist,
    List.filter_filter]
  unfold neededCommands
  refine flatMap_filter_congr fun m _ hsupported => ?_
  have hneed := snapshot.params.needInclude_of_supported hsupported
  rw [Bool.eq_iff_iff]
  simp only [Bool.and_eq_true, Bool.not_false, true_and, decide_eq_true_eq]
  unfold Taken Needs Wanted
  by_cases halter : m.alterVersion ≠ -1
  · simp only [if_pos halter]
    constructor
    · rintro ⟨⟨h1, h2⟩, hmax, -, -⟩
      exact ⟨hmax, h1, h2⟩
    · rintro ⟨hmax, h1, h2⟩
      exact ⟨⟨h1, h2⟩, hmax, ⟨by omega, h2⟩, hneed⟩
  · simp only [if_neg halter, Bool.and_eq_true]
    constructor
    · rintro ⟨⟨hc, hnew⟩, hmax, ⟨hwanted, -⟩, -⟩
      exact ⟨hmax, ⟨hwanted, hc⟩, hnew⟩
    · rintro ⟨hmax, ⟨hwanted, hc⟩, hnew⟩
      exact ⟨⟨hc, hnew⟩, hmax, ⟨hwanted, by omega⟩, hneed⟩

theorem neededCommands_eq_nil {wanted : Bool} {info : PartInfo} {partMetadataVersion : ℤ} {mutations : QueuedMutations} (hwanted : wanted = false)
    (hmetadata : params.metadataVersion ≤ partMetadataVersion) : params.neededCommands wanted info partMetadataVersion mutations = [] := by
  unfold neededCommands
  rw [List.filter_eq_nil_iff.2 fun m _ h => ?_]
  · rfl
  · have hneeds := (of_decide_eq_true h).2
    split_ifs at hneeds
    · omega
    · rw [hwanted] at hneeds
      exact absurd hneeds.1 Bool.false_ne_true

/-- **The commands that are applied on the fly to a part**: those it needs, in the order of the mutations. Mutations that
are no ALTERs are taken as long as the snapshot has counted a mutation with UPDATE, DELETE or READ_COLUMN commands. -/
theorem getOnFlyMutationCommandsForPart_eq {mutationsByPartition : MutationsByPartition}
    (hascend : ∀ partition ∈ mutationsByPartition.toList, partition.2.AltersAscend) {info : PartInfo} (hkind : info.kind = getKind info.partitionId)
    (hpart : info.isPatch = false) {partMetadataVersion : ℤ}
    (hdata : params.getMinPartDataVersionForPartition info.partitionId ≤ info.getDataVersion)
    (hmetadata : params.minPartMetadataVersion ≤ partMetadataVersion) :
    (params.getMutationsSnapshot mutationsByPartition).getOnFlyMutationCommandsForPart info partMetadataVersion =
      .ok (params.neededCommands ((params.needDataMutations || params.needAlterMutations) && params.countsData mutationsByPartition) info
        partMetadataVersion (mutationsOf mutationsByPartition info.partitionId)) := by
  have hregular : getKind info.partitionId ≠ .patch := by
    rw [← hkind]
    simpa [PartInfo.isPatch] using hpart
  unfold MutationsSnapshot.getOnFlyMutationCommandsForPart PartInfo.getOriginalPartitionId
  rw [hpart]
  simp only [Bool.false_eq_true, if_false, bind, Except.bind, Bool.or_false]
  by_cases hnothing : (!params.needDataMutations && !params.needAlterMutations &&
      decide (params.minPartMetadataVersion ≥ params.metadataVersion)) = true
  · have hsnapshot : params.getMutationsSnapshot mutationsByPartition = { params := params } := if_pos hnothing
    simp only [Bool.and_eq_true, Bool.not_eq_true', decide_eq_true_eq] at hnothing
    obtain ⟨⟨hd, ha⟩, hm⟩ := hnothing
    rw [hsnapshot, params.neededCommands_eq_nil (by simp [hd, ha]) (by omega)]
    rfl
  · have hsnapshot : params.getMutationsSnapshot mutationsByPartition =
        mutationsByPartition.toList.foldl params.takePartition { params := params } := if_neg hnothing
    have h := params.foldl_takePartition hascend
    rw [← hsnapshot] at h
    set snapshot := params.getMutationsSnapshot mutationsByPartition
    have hcounted : (snapshot.hasDataMutations || snapshot.hasAlterMutations) = params.countsData mutationsByPartition := by
      rw [Bool.eq_iff_iff]
      have hcounters : (snapshot.hasDataMutations || snapshot.hasAlterMutations) = true ↔ snapshot.counters.Counted := by
        unfold MutationsSnapshot.hasDataMutations MutationsSnapshot.hasAlterMutations MutationCounters.Counted
        simp
      rw [hcounters, h.counted]
      unfold countsData
      simp [List.any_eq_true]
    have hseen : (!snapshot.hasDataMutations && !snapshot.hasAlterMutations) = !params.countsData mutationsByPartition := by
      rw [← hcounted, Bool.not_or]
    cases hfind : mutationsByPartition.find info.partitionId with
    | none =>
      have hnone := h.find_none info.partitionId fun partition hpartition => KeyedSet.find_eq_none.1 hfind partition hpartition
      unfold mutationsOf
      rw [hnone, hfind]
      rfl
    | some partition =>
      obtain ⟨hmem, hname⟩ := KeyedSet.find_eq_some.1 hfind
      obtain ⟨q, hq, htaken⟩ := h.find_some partition hmem (hname ▸ hregular)
      rw [hname] at hq htaken
      have hmutations : mutationsOf mutationsByPartition info.partitionId = partition.2 := by
        unfold mutationsOf
        rw [hfind]
        rfl
      rw [hq, hmutations, hseen]
      have hcommands := @takeCommands_eq params partition.2 q (hascend partition hmem) info partMetadataVersion htaken snapshot h.params_eq
        hdata hmetadata (params.countsData mutationsByPartition)
      simp only
      split_ifs with hboth
      · rw [Bool.and_eq_true, Bool.not_eq_true', decide_eq_true_eq, h.params_eq] at hboth
        rw [params.neededCommands_eq_nil (by rw [hboth.1, Bool.and_false]) hboth.2]
        rfl
      · rw [hcommands]
        rfl

theorem getOnFlyMutationCommandsForPart_eq_two :
    let first : QueuedMutation := ⟨5, 2, [⟨.renameColumn, "a TO b", 0⟩]⟩
    let second : QueuedMutation := ⟨7, -1, [⟨.update, "b = 1 WHERE 1", 0⟩, ⟨.other "MATERIALIZE_INDEX", "i", 0⟩]⟩
    let mutations : MutationsByPartition := KeyedSet.empty.emplace ("all", (KeyedSet.empty.emplace first).emplace second)
    let params : SnapshotParams := { metadataVersion := 2, minPartMetadataVersion := 1, needDataMutations := true }
    (params.getMutationsSnapshot mutations).getOnFlyMutationCommandsForPart (.make "all" 1 1 0 0) 1 =
      .ok [⟨.renameColumn, "a TO b", 5⟩, ⟨.update, "b = 1 WHERE 1", 7⟩] := by
  intro first second mutations params
  have hascend : ∀ partition ∈ mutations.toList, partition.2.AltersAscend := by
    unfold QueuedMutations.AltersAscend
    decide +kernel
  rw [getOnFlyMutationCommandsForPart_eq params hascend rfl rfl (by decide) (by decide)]
  decide +kernel

/-- A mutation that is no ALTER and only renames a column is not counted as one that changes data, and is left out. -/
theorem not_getOnFlyMutationCommandsForPart_rename :
    let mutation : QueuedMutation := ⟨7, -1, [⟨.renameColumn, "a TO b", 0⟩]⟩
    let mutations : MutationsByPartition := KeyedSet.empty.emplace ("all", KeyedSet.empty.emplace mutation)
    let params : SnapshotParams := { metadataVersion := 2, minPartMetadataVersion := 1, needDataMutations := true }
    (params.getMutationsSnapshot mutations).getOnFlyMutationCommandsForPart (.make "all" 1 1 0 0) 1 = .ok [] ∧
      params.neededCommands (params.needDataMutations || params.needAlterMutations) (.make "all" 1 1 0 0) 1 (mutationsOf mutations "all") =
        [⟨.renameColumn, "a TO b", 7⟩] := by
  decide +kernel

end SnapshotParams

end MergeTree
