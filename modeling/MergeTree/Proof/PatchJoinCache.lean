import MergeTree.Spec.PatchJoinCache

/-!
# The pairs of a patch in the mode `Join`

* `lookup_insertRow`: what one row changes in the places of the keys.
* `Indexed.addBlocks`: each key that was read has the place of its row with the greatest version.
* `Walked.run`: the iterators that are kept between the rows of a block find what a fresh search finds.
-/

namespace MergeTree

variable {S V : Type}
variable {blocks : List (JoinPatchBlock S V)} {entry : PatchJoinEntry S V} {block : JoinPatchBlock S V} {row : (ℕ × ℕ) × ℕ}

namespace PatchJoinEntry

/-! ## Adding blocks -/

/-- The place that an entry has for a key. -/
def lookup (entry : PatchJoinEntry S V) (key : ℕ × ℕ) : Option (ℕ × ℕ) := ((entry.currentOffsets key.1).find key.2).map Prod.snd

theorem currentOffsets_setOffsets (entry : PatchJoinEntry S V) (n m : ℕ) (offsets : PatchOffsetsMap) :
    (entry.setOffsets n offsets).currentOffsets m = if m = n then offsets else entry.currentOffsets m := by
  unfold currentOffsets setOffsets
  simp only
  rw [KeyedSet.find_emplace_erase (a := (n, offsets))]
  split_ifs with h
  · rfl
  · rfl

theorem lookup_switchBlock (entry : PatchJoinEntry S V) (n prev : ℕ) (key : ℕ × ℕ) :
    (entry.switchBlock n prev).lookup key = entry.lookup key := by
  unfold switchBlock lookup currentOffsets
  split_ifs with h
  · simp only
    rw [KeyedSet.find_emplace]
    split_ifs with hkey
    · cases entry.hashMap.find key.1 <;> simp
    · rfl
  · rfl

@[simp] theorem blocks_switchBlock (entry : PatchJoinEntry S V) (n prev : ℕ) : (entry.switchBlock n prev).blocks = entry.blocks := by
  unfold switchBlock
  split_ifs <;> rfl

theorem versionAt_switchBlock (entry : PatchJoinEntry S V) (n prev : ℕ) (place : ℕ × ℕ) :
    (entry.switchBlock n prev).versionAt place = entry.versionAt place := by
  unfold versionAt
  rw [blocks_switchBlock]

/-- The place of a key once a row of the key was read. -/
def chosen (entry : PatchJoinEntry S V) (version : ℕ) (place : ℕ × ℕ) : Option (ℕ × ℕ) → ℕ × ℕ
  | none => place
  | some existing => if version > entry.versionAt existing then place else existing

/-- **What a row changes**: the place of its own key. -/
theorem lookup_insertRow (entry : PatchJoinEntry S V) (n o version : ℕ) (place key : ℕ × ℕ) :
    (entry.insertRow n o version place).lookup key =
      if key = (n, o) then some (entry.chosen version place (entry.lookup key)) else entry.lookup key := by
  obtain ⟨m, p⟩ := key
  have hother : ∀ offsets, (∀ p, p ≠ o → offsets.find p = (entry.currentOffsets n).find p) →
      (m, p) ≠ (n, o) → (entry.setOffsets n offsets).lookup (m, p) = entry.lookup (m, p) := by
    intro offsets hsame hne
    unfold lookup
    rw [currentOffsets_setOffsets]
    split_ifs with hm
    · obtain rfl : m = n := hm
      rw [hsame p fun hp => hne (by rw [hp])]
    · rfl
  unfold insertRow
  cases hfind : (entry.currentOffsets n).find o with
  | none =>
    simp only [hfind]
    have hput : ∀ p, ((entry.currentOffsets n).emplace (o, place)).find p =
        if p = o then some (o, place) else (entry.currentOffsets n).find p := by
      intro p
      rw [KeyedSet.find_emplace]
      split_ifs with hp
      · rw [hp, hfind, Option.getD_none]
      · rfl
    split_ifs with hkey
    · obtain ⟨rfl, rfl⟩ := Prod.mk.inj hkey
      have hnone : entry.lookup (m, p) = none := by unfold lookup; rw [hfind]; rfl
      rw [hnone]
      unfold lookup
      rw [currentOffsets_setOffsets, if_pos rfl, hput, if_pos rfl]
      rfl
    · exact hother _ (fun p hp => by rw [hput, if_neg hp]) hkey
  | some existing =>
    simp only [hfind]
    by_cases hversion : version > entry.versionAt existing.2
    · rw [if_pos hversion]
      have hput := fun p => KeyedSet.find_emplace_erase (S := entry.currentOffsets n) (a := (o, place)) (k := p)
      split_ifs with hkey
      · obtain ⟨rfl, rfl⟩ := Prod.mk.inj hkey
        have hsome : entry.lookup (m, p) = some existing.2 := by unfold lookup; rw [hfind]; rfl
        rw [hsome]
        unfold lookup
        rw [currentOffsets_setOffsets, if_pos rfl, hput, if_pos rfl, chosen, if_pos hversion]
        rfl
      · exact hother _ (fun p hp => by rw [hput, if_neg hp]) hkey
    · rw [if_neg hversion]
      split_ifs with hkey
      · rw [hkey]
        have hsome : entry.lookup (n, o) = some existing.2 := by unfold lookup; rw [hfind]; rfl
        rw [hsome, chosen, if_neg hversion]
      · rfl

@[simp] theorem insertRow_frame (entry : PatchJoinEntry S V) (n o version : ℕ) (place : ℕ × ℕ) :
    (entry.insertRow n o version place).blocks = entry.blocks ∧ (entry.insertRow n o version place).minBlock = entry.minBlock ∧
      (entry.insertRow n o version place).maxBlock = entry.maxBlock := by
  unfold insertRow
  cases hfind : (entry.currentOffsets n).find o with
  | none =>
    simp only [hfind]
    exact ⟨rfl, rfl, rfl⟩
  | some existing =>
    simp only [hfind]
    split_ifs <;> exact ⟨rfl, rfl, rfl⟩

@[simp] theorem blocks_addRow (newBlockIdx : ℕ) (state : PatchJoinEntry S V × ℕ) (row : ((ℕ × ℕ) × ℕ) × ℕ) :
    (PatchJoinEntry.addRow newBlockIdx state row).1.blocks = state.1.blocks := by
  unfold PatchJoinEntry.addRow
  rw [(insertRow_frame _ _ _ _ _).1, blocks_switchBlock]

theorem blocks_foldl_addRow (newBlockIdx : ℕ) (rows : List (((ℕ × ℕ) × ℕ) × ℕ)) (state : PatchJoinEntry S V × ℕ) :
    (rows.foldl (PatchJoinEntry.addRow newBlockIdx) state).1.blocks = state.1.blocks := by
  induction rows generalizing state with
  | nil => rfl
  | cons row rows ih => rw [List.foldl_cons, ih, blocks_addRow]

/-- **An entry after the rows `seen`**, each with its place: the place of a key is that of its row with the greatest
version. -/
structure Indexed (entry : PatchJoinEntry S V) (seen : List (((ℕ × ℕ) × ℕ) × (ℕ × ℕ))) : Prop where
  placed : ∀ row ∈ seen, ∃ block, entry.blocks[row.2.1]? = some block ∧ block.dataVersions.getD row.2.2 0 = row.1.2
  found : ∀ key place, entry.lookup key = some place →
    ∃ version, ((key, version), place) ∈ seen ∧ ∀ row ∈ seen, row.1.1 = key → row.1.2 ≤ version
  complete : ∀ row ∈ seen, (entry.lookup row.1.1).isSome
  bounds : ∀ row ∈ seen, entry.minBlock ≤ row.1.1.1 ∧ row.1.1.1 ≤ entry.maxBlock
  maxBlock_lt : entry.maxBlock < 2 ^ 64 - 1

namespace Indexed

variable {entry : PatchJoinEntry S V} {seen : List (((ℕ × ℕ) × ℕ) × (ℕ × ℕ))}

theorem versionAt_eq (h : Indexed entry seen) {row : ((ℕ × ℕ) × ℕ) × (ℕ × ℕ)} (hrow : row ∈ seen) :
    entry.versionAt row.2 = row.1.2 := by
  obtain ⟨block, hblock, hversion⟩ := h.placed row hrow
  unfold versionAt
  rw [hblock]
  exact hversion

/-- The previous block number: none yet, or one within the bounds. -/
def Previous (entry : PatchJoinEntry S V) (prev : ℕ) : Prop := prev = 2 ^ 64 - 1 ∨ (entry.minBlock ≤ prev ∧ prev ≤ entry.maxBlock)

theorem bounds_switchBlock {n prev : ℕ} (hprev : Previous entry prev) (hn : n < 2 ^ 64 - 1) :
    (entry.switchBlock n prev).minBlock ≤ n ∧ n ≤ (entry.switchBlock n prev).maxBlock ∧
      (entry.switchBlock n prev).minBlock ≤ entry.minBlock ∧ entry.maxBlock ≤ (entry.switchBlock n prev).maxBlock ∧
      (entry.maxBlock < 2 ^ 64 - 1 → (entry.switchBlock n prev).maxBlock < 2 ^ 64 - 1) := by
  unfold switchBlock
  split_ifs with hne
  · simp only
    omega
  · obtain rfl : n = prev := not_not.1 hne
    rcases hprev with hprev | ⟨hmin, hmax⟩
    · exact absurd hprev hn.ne
    · exact ⟨hmin, hmax, le_rfl, le_rfl, id⟩

/-- **One row.** -/
theorem addRow (h : Indexed entry seen) {prev n o version j newBlockIdx : ℕ} {block : PatchBlock S V} (hprev : Previous entry prev)
    (hn : n < 2 ^ 64 - 1) (hblock : entry.blocks[newBlockIdx]? = some block) (hversion : block.dataVersions.getD j 0 = version) :
    Indexed (PatchJoinEntry.addRow newBlockIdx (entry, prev) (((n, o), version), j)).1 (seen ++ [(((n, o), version), (newBlockIdx, j))]) ∧
      Previous (PatchJoinEntry.addRow newBlockIdx (entry, prev) (((n, o), version), j)).1 n := by
  obtain ⟨hmin, hmax, hminle, hmaxle, hmaxlt⟩ := bounds_switchBlock (n := n) hprev hn
  have hlookup := (entry.switchBlock n prev).lookup_insertRow n o version (newBlockIdx, j)
  have hframe := (entry.switchBlock n prev).insertRow_frame n o version (newBlockIdx, j)
  unfold PatchJoinEntry.addRow
  simp only
  set added := (entry.switchBlock n prev).insertRow n o version (newBlockIdx, j)
  obtain ⟨hblocks, hminBlock, hmaxBlock⟩ := hframe
  rw [blocks_switchBlock] at hblocks
  -- The place of the key is chosen by the versions, which are those of the rows seen.
  have hchosen : ∀ key place, added.lookup key = some place →
      ∃ v, ((key, v), place) ∈ seen ++ [(((n, o), version), (newBlockIdx, j))] ∧
        ∀ row ∈ seen ++ [(((n, o), version), (newBlockIdx, j))], row.1.1 = key → row.1.2 ≤ v := by
    intro key place hplace
    rw [hlookup key, lookup_switchBlock] at hplace
    simp only [List.mem_append, List.mem_singleton]
    split_ifs at hplace with hkey
    · subst hkey
      cases hbefore : entry.lookup (n, o) with
      | none =>
        rw [hbefore] at hplace
        obtain rfl : (newBlockIdx, j) = place := Option.some.inj hplace
        refine ⟨version, Or.inr rfl, ?_⟩
        rintro row (hrow | rfl) hsame
        · have := h.complete row hrow
          rw [hsame, hbefore] at this
          cases this
        · exact le_rfl
      | some existing =>
        obtain ⟨v, hv, hgreatest⟩ := h.found _ _ hbefore
        rw [hbefore, Option.some.injEq, chosen, versionAt_switchBlock, h.versionAt_eq hv] at hplace
        split_ifs at hplace with hgt
        · subst hplace
          refine ⟨version, Or.inr rfl, ?_⟩
          rintro row (hrow | rfl) hsame
          · exact (hgreatest row hrow hsame).trans (le_of_lt hgt)
          · exact le_rfl
        · subst hplace
          refine ⟨v, Or.inl hv, ?_⟩
          rintro row (hrow | rfl) hsame
          · exact hgreatest row hrow hsame
          · exact not_lt.1 hgt
    · obtain ⟨v, hv, hgreatest⟩ := h.found _ _ hplace
      refine ⟨v, Or.inl hv, ?_⟩
      rintro row (hrow | rfl) hsame
      · exact hgreatest row hrow hsame
      · exact absurd hsame.symm hkey
  refine ⟨⟨?_, hchosen, ?_, ?_, hmaxBlock ▸ hmaxlt h.maxBlock_lt⟩, Or.inr ⟨hminBlock ▸ hmin, hmaxBlock ▸ hmax⟩⟩
  · intro row hrow
    rw [hblocks]
    rcases List.mem_append.1 hrow with hrow | hrow
    · exact h.placed row hrow
    · rw [List.mem_singleton.1 hrow]
      exact ⟨block, hblock, hversion⟩
  · intro row hrow
    rw [hlookup, lookup_switchBlock]
    split_ifs with hkey
    · rfl
    · rcases List.mem_append.1 hrow with hrow | hrow
      · exact h.complete row hrow
      · rw [List.mem_singleton.1 hrow] at hkey
        exact absurd rfl hkey
  · intro row hrow
    rw [hminBlock, hmaxBlock]
    rcases List.mem_append.1 hrow with hrow | hrow
    · exact ⟨hminle.trans (h.bounds row hrow).1, (h.bounds row hrow).2.trans hmaxle⟩
    · rw [List.mem_singleton.1 hrow]
      exact ⟨hmin, hmax⟩

/-- **The rows of a block.** -/
theorem addRows {newBlockIdx : ℕ} {block : PatchBlock S V} {rows : List (((ℕ × ℕ) × ℕ) × ℕ)}
    (hn : ∀ row ∈ rows, row.1.1.1 < 2 ^ 64 - 1 ∧ block.dataVersions.getD row.2 0 = row.1.2) {prev : ℕ} (h : Indexed entry seen)
    (hprev : Previous entry prev) (hblock : entry.blocks[newBlockIdx]? = some block) :
    Indexed (rows.foldl (PatchJoinEntry.addRow newBlockIdx) (entry, prev)).1
      (seen ++ rows.map fun row => (row.1, (newBlockIdx, row.2))) := by
  induction rows generalizing entry prev seen with
  | nil => simpa using h
  | cons row rows ih =>
    obtain ⟨⟨⟨n, o⟩, version⟩, j⟩ := row
    rw [List.forall_mem_cons] at hn
    obtain ⟨hadded, hprev'⟩ := h.addRow hprev hn.1.1 hblock hn.1.2 (o := o)
    have hrest := ih hn.2 hadded hprev' (by rwa [blocks_addRow])
    rwa [List.append_assoc] at hrest

end Indexed

/-- The rows of blocks with their places. -/
def placedRows (blocks : List (JoinPatchBlock S V)) : List (((ℕ × ℕ) × ℕ) × (ℕ × ℕ)) :=
  blocks.zipIdx.flatMap fun block => block.1.keyedRows.zipIdx.map fun row => (row.1, (block.2, row.2))

theorem placedRows_concat (blocks : List (JoinPatchBlock S V)) (block : JoinPatchBlock S V) :
    placedRows (blocks ++ [block]) = placedRows blocks ++ block.keyedRows.zipIdx.map fun row => (row.1, (blocks.length, row.2)) := by
  unfold placedRows
  rw [List.zipIdx_append, List.flatMap_append]
  simp

theorem mem_placedRows {place : ℕ × ℕ} :
    (row, place) ∈ placedRows blocks ↔ ∃ block, blocks[place.1]? = some block ∧ block.keyedRows[place.2]? = some row := by
  obtain ⟨i, j⟩ := place
  unfold placedRows
  simp only [List.mem_flatMap, List.mem_map, Prod.exists, Prod.mk.injEq, List.mem_zipIdx_iff_getElem?]
  constructor
  · rintro ⟨block, i', hblock, n, o, version, j', hrow, rfl, rfl, rfl⟩
    exact ⟨block, hblock, hrow⟩
  · rintro ⟨block, hblock, hrow⟩
    exact ⟨block, i, hblock, row.1.1, row.1.2, row.2, j, hrow, rfl, rfl, rfl⟩

theorem map_fst_placedRows (blocks : List (JoinPatchBlock S V)) :
    (placedRows blocks).map Prod.fst = blocks.flatMap JoinPatchBlock.keyedRows := by
  induction blocks using List.reverseRecOn with
  | nil => rfl
  | append_singleton blocks block ih =>
    rw [placedRows_concat, List.map_append, ih, List.flatMap_append, List.map_map]
    simp [Function.comp_def, List.zipIdx_map_fst]

theorem mem_keyedRows {j : ℕ} (h : block.keyedRows[j]? = some row) :
    j < block.rows ∧ block.data.dataVersions.getD j 0 = row.2 := by
  unfold JoinPatchBlock.keyedRows at h
  obtain ⟨hj, rfl⟩ := List.getElem?_eq_some_iff.1 h
  have hlen := block.length_dataVersions
  simp only [List.length_zip] at hj
  have hversions : j < block.data.dataVersions.length := by omega
  refine ⟨by unfold JoinPatchBlock.rows; omega, ?_⟩
  rw [List.getD_eq_getElem _ _ hversions, List.getElem_zip]

/-- The blocks that an entry keeps: those with rows. -/
def keptBlocks (blocks : List (JoinPatchBlock S V)) : List (JoinPatchBlock S V) := blocks.filter fun block => block.rows ≠ 0

theorem keptBlocks_concat (blocks : List (JoinPatchBlock S V)) (block : JoinPatchBlock S V) :
    keptBlocks (blocks ++ [block]) = keptBlocks blocks ++ if block.rows = 0 then [] else [block] := by
  unfold keptBlocks
  rw [List.filter_append]
  by_cases hrows : block.rows = 0
  · simp [hrows]
  · simp [hrows]

theorem flatMap_keptBlocks (blocks : List (JoinPatchBlock S V)) :
    (keptBlocks blocks).flatMap JoinPatchBlock.keyedRows = blocks.flatMap JoinPatchBlock.keyedRows := by
  induction blocks with
  | nil => rfl
  | cons block blocks ih =>
    unfold keptBlocks at ih ⊢
    rw [List.filter_cons]
    split_ifs with hrows
    · rw [List.flatMap_cons, List.flatMap_cons, ih]
    · have hempty : block.keyedRows = [] := by
        rw [List.eq_nil_iff_length_eq_zero]
        have : block.blockNumbers.length = 0 := by simpa [JoinPatchBlock.rows] using hrows
        unfold JoinPatchBlock.keyedRows
        simp [this]
      rw [List.flatMap_cons, hempty, ih, List.nil_append]

/-- **A call succeeds** within the limits of the places. -/
theorem addBlock_eq_ok_iff (entry : PatchJoinEntry S V) (block : JoinPatchBlock S V) :
    (∃ entry', entry.addBlock block = .ok entry') ↔ block.rows = 0 ∨ (entry.blocks.length ≤ 2 ^ 32 - 1 ∧ block.rows ≤ 2 ^ 32 - 1) := by
  unfold PatchJoinEntry.addBlock
  by_cases hrows : block.rows = 0
  · simp [hrows]
  · rw [if_neg hrows]
    simp only
    split_ifs with hidx hmany
    · exact ⟨nofun, fun h => by omega⟩
    · exact ⟨nofun, fun h => by omega⟩
    · exact ⟨fun _ => Or.inr ⟨not_lt.1 hidx, not_lt.1 hmany⟩, fun _ => ⟨_, rfl⟩⟩

theorem blocks_addBlock {entry entry' : PatchJoinEntry S V} (h : entry.addBlock block = .ok entry') :
    entry'.blocks = entry.blocks ++ (keptBlocks [block]).map JoinPatchBlock.data := by
  unfold PatchJoinEntry.addBlock at h
  rw [show [block] = [] ++ [block] from rfl, keptBlocks_concat]
  by_cases hrows : block.rows = 0
  · rw [if_pos hrows] at h
    obtain rfl := Except.ok.inj h
    simp [hrows, keptBlocks]
  · rw [if_neg hrows] at h
    simp only at h
    split_ifs at h
    obtain rfl := Except.ok.inj h
    rw [blocks_foldl_addRow]
    simp [hrows, keptBlocks]

theorem addBlocks_concat_eq_ok :
    addBlocks (blocks ++ [block]) = .ok entry ↔ ∃ before, addBlocks blocks = .ok before ∧ before.addBlock block = .ok entry := by
  unfold addBlocks
  rw [List.foldlM_append]
  cases blocks.foldlM PatchJoinEntry.addBlock {} with
  | error e => exact ⟨nofun, fun ⟨_, h, _⟩ => nomatch h⟩
  | ok before =>
    have hlast : (List.foldlM PatchJoinEntry.addBlock before [block]) = before.addBlock block := by
      rw [List.foldlM_cons]
      cases before.addBlock block <;> rfl
    change List.foldlM PatchJoinEntry.addBlock before [block] = .ok entry ↔ _
    rw [hlast]
    exact ⟨fun h => ⟨before, rfl, h⟩, fun ⟨_, hbefore, h⟩ => Except.ok.inj hbefore ▸ h⟩

theorem blocks_addBlocks (h : addBlocks blocks = .ok entry) :
    entry.blocks = (keptBlocks blocks).map JoinPatchBlock.data := by
  induction blocks using List.reverseRecOn generalizing entry with
  | nil =>
    obtain rfl := Except.ok.inj h
    rfl
  | append_singleton blocks block ih =>
    obtain ⟨before, hbefore, hlast⟩ := addBlocks_concat_eq_ok.1 h
    have hkept : keptBlocks (blocks ++ [block]) = keptBlocks blocks ++ keptBlocks [block] := List.filter_append ..
    rw [blocks_addBlock hlast, ih hbefore, hkept, List.map_append]

/-- **Which lists of blocks can be added.** -/
theorem addBlocks_isOk_iff (blocks : List (JoinPatchBlock S V)) : (∃ entry, addBlocks blocks = .ok entry) ↔
    (keptBlocks blocks).length ≤ 2 ^ 32 ∧ ∀ block ∈ blocks, block.rows ≤ 2 ^ 32 - 1 := by
  induction blocks using List.reverseRecOn with
  | nil => exact ⟨fun _ => ⟨Nat.zero_le _, nofun⟩, fun _ => ⟨_, rfl⟩⟩
  | append_singleton blocks block ih =>
    have hsplit : (∃ entry, addBlocks (blocks ++ [block]) = .ok entry) ↔ (∃ entry, addBlocks blocks = .ok entry) ∧
        (block.rows = 0 ∨ ((keptBlocks blocks).length ≤ 2 ^ 32 - 1 ∧ block.rows ≤ 2 ^ 32 - 1)) := by
      simp only [addBlocks_concat_eq_ok]
      constructor
      · rintro ⟨entry, before, hbefore, hlast⟩
        have := (addBlock_eq_ok_iff before block).1 ⟨entry, hlast⟩
        rw [blocks_addBlocks hbefore, List.length_map] at this
        exact ⟨⟨before, hbefore⟩, this⟩
      · rintro ⟨⟨before, hbefore⟩, hlimits⟩
        rw [← List.length_map (f := JoinPatchBlock.data), ← blocks_addBlocks hbefore] at hlimits
        obtain ⟨entry, hentry⟩ := (addBlock_eq_ok_iff before block).2 hlimits
        exact ⟨entry, before, hbefore, hentry⟩
    rw [hsplit, ih, keptBlocks_concat, List.length_append]
    simp only [List.mem_append, List.mem_singleton, or_imp, forall_and, forall_eq]
    by_cases hrows : block.rows = 0
    · simp [hrows]
    · rw [if_neg hrows, List.length_singleton]
      constructor
      · rintro ⟨⟨hlen, hold⟩, hlimits⟩
        exact ⟨by omega, hold, by omega⟩
      · rintro ⟨hlen, hold, hnew⟩
        exact ⟨⟨by omega, hold⟩, Or.inr ⟨by omega, hnew⟩⟩

namespace Indexed

/-- **One block.** -/
theorem addBlock {entry entry' : PatchJoinEntry S V} (h : Indexed entry (placedRows (keptBlocks blocks)))
    (hlen : entry.blocks.length = (keptBlocks blocks).length)
    (hn : ∀ n ∈ block.blockNumbers, n < 2 ^ 64 - 1) (hadd : entry.addBlock block = .ok entry') :
    Indexed entry' (placedRows (keptBlocks (blocks ++ [block]))) := by
  unfold PatchJoinEntry.addBlock at hadd
  rw [keptBlocks_concat]
  by_cases hrows : block.rows = 0
  · rw [if_pos hrows] at hadd
    obtain rfl := Except.ok.inj hadd
    rwa [if_pos hrows, List.append_nil]
  · rw [if_neg hrows] at hadd
    simp only at hadd
    split_ifs at hadd
    obtain rfl := Except.ok.inj hadd
    rw [if_neg hrows]
    set pushed : PatchJoinEntry S V := { entry with blocks := entry.blocks ++ [block.data] } with hpushed
    have hstart : Indexed pushed (placedRows (keptBlocks blocks)) := by
      refine ⟨fun row hrow => ?_, h.found, h.complete, h.bounds, h.maxBlock_lt⟩
      obtain ⟨old, hold, hversion⟩ := h.placed row hrow
      exact ⟨old, by rw [hpushed, List.getElem?_append_left (List.getElem?_eq_some_iff.1 hold).1]; exact hold, hversion⟩
    have hget : pushed.blocks[entry.blocks.length]? = some block.data := by rw [hpushed]; simp
    rw [placedRows_concat, ← hlen]
    refine hstart.addRows (fun row hrow => ?_) (Or.inl rfl) hget
    have hgetRow := List.mem_zipIdx_iff_getElem?.1 hrow
    obtain ⟨hj, hversion⟩ := mem_keyedRows hgetRow
    refine ⟨hn _ ?_, hversion⟩
    have hmem := List.mem_of_getElem? hgetRow
    unfold JoinPatchBlock.keyedRows at hmem
    exact (List.of_mem_zip (List.of_mem_zip hmem).1).1

/-- **The blocks of an entry.** -/
theorem addBlocks (hn : ∀ block ∈ blocks, ∀ n ∈ block.blockNumbers, n < 2 ^ 64 - 1) (hadd : addBlocks blocks = .ok entry) :
    Indexed entry (placedRows (keptBlocks blocks)) := by
  induction blocks using List.reverseRecOn generalizing entry with
  | nil =>
    obtain rfl := Except.ok.inj hadd
    exact ⟨nofun, nofun, nofun, nofun, (by norm_num : 0 < 2 ^ 64 - 1)⟩
  | append_singleton blocks block ih =>
    obtain ⟨before, hbefore, hlast⟩ := addBlocks_concat_eq_ok.1 hadd
    have hindexed := ih (fun b hb => hn b (List.mem_append_left _ hb)) hbefore
    exact hindexed.addBlock (by rw [blocks_addBlocks hbefore, List.length_map]) (hn block (by simp)) hlast

end Indexed

end PatchJoinEntry

/-! ## The lookup -/

/-- **The rows `done` were looked up**: the iterators of a block number are where the search for an offset of theirs ended. -/
structure Walked (entry : PatchJoinEntry S V) (done : List ((ℕ × ℕ) × ℕ)) (state : JoinState) : Prop where
  pairs : state.pairs = done.filterMap fun row => (entry.lookup row.1).map fun place => (row.2, place)
  iterators : ∀ n iterators, state.offsetsIterators n = some iterators →
    iterators.found = (entry.hashMap.find n).isSome ∧
      (iterators.found = true → ∃ row ∈ done, row.1.1 = n ∧ iterators.it = (entry.currentOffsets n).above row.1.2)
  prev : state.prevBlockNumber = 2 ^ 64 - 1 ∨ (state.offsetsIterators state.prevBlockNumber).isSome

namespace Walked

variable {entry : PatchJoinEntry S V} {done : List ((ℕ × ℕ) × ℕ)} {state : JoinState}

/-- The iterators of a row: none for an unknown block number, else not past the offset of the row. -/
theorem iterators_switch (h : Walked entry done state) {n o : ℕ} (hn : n < 2 ^ 64 - 1)
    (hafter : ∀ row ∈ done, row.1.1 = n → row.1.2 < o) :
    ∃ iterators, entry.switchIterators state (n, o) n = some iterators ∧ iterators.found = (entry.hashMap.find n).isSome ∧
      (iterators.found = true → ∃ x ≤ o, iterators.it = (entry.currentOffsets n).above x) := by
  unfold PatchJoinEntry.switchIterators
  cases hold : state.offsetsIterators n with
  | some iterators =>
    obtain ⟨hfound, hit⟩ := h.iterators n iterators hold
    refine ⟨iterators, by simp [hold], hfound, fun hyes => ?_⟩
    obtain ⟨row, hrow, hrown, hat⟩ := hit hyes
    exact ⟨row.1.2, (hafter row hrow hrown).le, hat⟩
  | none =>
    have hne : n ≠ state.prevBlockNumber := by
      rintro rfl
      rcases h.prev with hprev | hprev
      · omega
      · rw [hold] at hprev
        cases hprev
    rw [if_pos ⟨hne, rfl⟩, Function.update_self]
    refine ⟨_, rfl, ?_⟩
    unfold PatchJoinEntry.findIterators PatchJoinEntry.currentOffsets
    cases hfind : entry.hashMap.find n with
    | some offsets => exact ⟨rfl, fun _ => ⟨o, le_rfl, rfl⟩⟩
    | none => exact ⟨rfl, nofun⟩

theorem switchIterators_other (state : JoinState) {key : ℕ × ℕ} {m : ℕ} (hm : m ≠ key.1) :
    entry.switchIterators state key m = state.offsetsIterators m := by
  unfold PatchJoinEntry.switchIterators
  split_ifs
  · rw [Function.update_of_ne hm]
  · rfl

theorem pairs_of_head (pairs : List (ℕ × ℕ × ℕ)) (it : List (ℕ × ℕ × ℕ)) (o r : ℕ) :
    (match it with
      | offset :: _ => if offset.1 = o then pairs ++ [(r, offset.2)] else pairs
      | [] => pairs) =
      pairs ++ ((it.head?.filter fun offset => offset.1 = o).map fun offset => (r, offset.2)).toList := by
  cases it with
  | nil => simp
  | cons offset it =>
    simp only [List.head?_cons, Option.filter_some, decide_eq_true_eq]
    split_ifs <;> simp

/-- **One row of the block.** -/
theorem joinRow (h : Walked entry done state) (hbounds : ∀ key, (entry.lookup key).isSome → entry.minBlock ≤ key.1 ∧ key.1 ≤ entry.maxBlock)
    (hmax : entry.maxBlock < 2 ^ 64 - 1) (hafter : ∀ before ∈ done, before.1.1 = row.1.1 → before.1.2 < row.1.2) :
    Walked entry (done ++ [row]) (entry.joinRow state row) := by
  obtain ⟨⟨n, o⟩, r⟩ := row
  have hpairs : ∀ place : Option (ℕ × ℕ), entry.lookup (n, o) = place →
      (done ++ [((n, o), r)]).filterMap (fun row => (entry.lookup row.1).map fun place => (row.2, place)) =
        state.pairs ++ (place.map fun place => (r, place)).toList := by
    rintro place rfl
    rw [List.filterMap_append, h.pairs]
    cases hplace : entry.lookup (n, o) <;> simp [hplace]
  have hkeep : ∀ m iterators, state.offsetsIterators m = some iterators → iterators.found = (entry.hashMap.find m).isSome ∧
      (iterators.found = true → ∃ row ∈ done ++ [((n, o), r)], row.1.1 = m ∧ iterators.it = (entry.currentOffsets m).above row.1.2) := by
    intro m iterators hm
    obtain ⟨hfound, hit⟩ := h.iterators m iterators hm
    refine ⟨hfound, fun hyes => ?_⟩
    obtain ⟨row, hrow, hat⟩ := hit hyes
    exact ⟨row, List.mem_append_left _ hrow, hat⟩
  unfold PatchJoinEntry.joinRow
  simp only
  by_cases hout : n < entry.minBlock ∨ n > entry.maxBlock
  · have hnone : entry.lookup (n, o) = none := by
      by_contra hsome
      have := hbounds _ (Option.isSome_iff_ne_none.2 hsome)
      omega
    rw [if_pos hout]
    exact ⟨by rw [hpairs none hnone]; simp, hkeep, h.prev⟩
  · rw [if_neg hout]
    obtain ⟨iterators, hiterators, hfound, hit⟩ := h.iterators_switch (n := n) (o := o) (by omega) hafter
    rw [hiterators, Option.getD_some]
    by_cases hyes : iterators.found = true
    · -- The iterator moves on to the offset of the row.
      obtain ⟨x, hx, hat⟩ := hit hyes
      rw [if_pos hyes, hat, KeyedSet.dropWhile_above hx]
      refine ⟨?_, fun m found hm => ?_, Or.inr ?_⟩
      · have hplace : entry.lookup (n, o) = (((entry.currentOffsets n).above o).head?.filter fun offset => offset.1 = o).map Prod.snd := by
          rw [KeyedSet.head?_above]
          rfl
        refine (pairs_of_head state.pairs _ o r).trans ?_
        rw [hpairs _ hplace, Option.map_map]
        rfl
      · simp only at hm
        by_cases hmn : m = n
        · subst hmn
          rw [Function.update_self] at hm
          obtain rfl := Option.some.inj hm
          exact ⟨hfound, fun _ => ⟨((m, o), r), by simp, rfl, rfl⟩⟩
        · rw [Function.update_of_ne hmn, switchIterators_other state hmn] at hm
          exact hkeep m found hm
      · simp
    · have hnone : entry.lookup (n, o) = none := by
        have hunknown : entry.hashMap.find n = none := by
          rw [hfound] at hyes
          simpa using hyes
        unfold PatchJoinEntry.lookup PatchJoinEntry.currentOffsets
        rw [hunknown]
        rfl
      rw [if_neg hyes]
      refine ⟨by rw [hpairs none hnone]; simp, fun m found hm => ?_, Or.inr ?_⟩
      · by_cases hmn : m = n
        · subst hmn
          simp only at hm
          rw [hiterators] at hm
          obtain rfl := Option.some.inj hm
          exact ⟨hfound, fun h => absurd h hyes⟩
        · simp only at hm
          rw [switchIterators_other state hmn] at hm
          exact hkeep m found hm
      · simp only
        rw [hiterators]
        rfl

/-- **The rows of a block**, with the offsets ascending within each block number. -/
theorem run (hbounds : ∀ key, (entry.lookup key).isSome → entry.minBlock ≤ key.1 ∧ key.1 ≤ entry.maxBlock)
    (hmax : entry.maxBlock < 2 ^ 64 - 1) {rows : List ((ℕ × ℕ) × ℕ)} (h : Walked entry done state)
    (hsorted : (done ++ rows).Pairwise fun a b => a.1.1 = b.1.1 → a.1.2 < b.1.2) :
    Walked entry (done ++ rows) (rows.foldl entry.joinRow state) := by
  induction rows generalizing done state with
  | nil => simpa using h
  | cons row rows ih =>
    have hafter : ∀ before ∈ done, before.1.1 = row.1.1 → before.1.2 < row.1.2 :=
      fun before hbefore => (List.pairwise_append.1 hsorted).2.2 before hbefore row List.mem_cons_self
    have hstep := h.joinRow hbounds hmax hafter
    rw [List.append_cons] at hsorted ⊢
    exact ih hstep hsorted

end Walked

/-! ## The outcome -/

/-- **The row of a key with the greatest version**, by its place in the blocks that are kept. -/
def Greatest (blocks : List (JoinPatchBlock S V)) (key place : ℕ × ℕ) : Prop :=
  ∃ block version, (PatchJoinEntry.keptBlocks blocks)[place.1]? = some block ∧ block.keyedRows[place.2]? = some (key, version) ∧
    ∀ other ∈ blocks, ∀ row ∈ other.keyedRows, row.1 = key → row.2 ≤ version

/-- The rows of the result with the places of their patch rows. -/
def PatchToApply.places (patch : PatchToApply S V) : List (ℕ × ℕ × ℕ) :=
  patch.resultRowIndices.zip (patch.patchBlockIndices.zip patch.patchRowIndices)

/-- Blocks in which no two rows have the same key and the same version. -/
def DistinctVersions (blocks : List (JoinPatchBlock S V)) : Prop :=
  (blocks.flatMap JoinPatchBlock.keyedRows).Pairwise fun a b => a.1 = b.1 → a.2 ≠ b.2

namespace PatchJoinEntry

open JoinPatchBlock in
theorem mem_flatMap_iff :
    row ∈ blocks.flatMap keyedRows ↔ ∃ place, (row, place) ∈ placedRows (keptBlocks blocks) := by
  rw [← flatMap_keptBlocks, ← map_fst_placedRows, List.mem_map]
  simp

theorem place_unique (hversions : DistinctVersions blocks) {place place' : ℕ × ℕ}
    (h : (row, place) ∈ placedRows (keptBlocks blocks)) (h' : (row, place') ∈ placedRows (keptBlocks blocks)) : place = place' := by
  have hnodup : ((placedRows (keptBlocks blocks)).map Prod.fst).Nodup := by
    rw [map_fst_placedRows, flatMap_keptBlocks]
    exact hversions.imp fun hne heq => hne (congrArg Prod.fst heq) (congrArg Prod.snd heq)
  exact congrArg Prod.snd (List.inj_on_of_nodup_map hnodup h h' rfl)

/-- **An entry has the place of the greatest version of a key.** -/
theorem lookup_eq_some_iff (hversions : DistinctVersions blocks)
    (h : Indexed entry (placedRows (keptBlocks blocks))) {key place : ℕ × ℕ} : entry.lookup key = some place ↔ Greatest blocks key place := by
  have hgreatest : ∀ place, entry.lookup key = some place → Greatest blocks key place := by
    intro place hplace
    obtain ⟨version, hmem, hmax⟩ := h.found key place hplace
    obtain ⟨block, hblock, hrow⟩ := mem_placedRows.1 hmem
    refine ⟨block, version, hblock, hrow, fun other hother row hrow hkey => ?_⟩
    obtain ⟨place', hplace'⟩ := mem_flatMap_iff.1 (List.mem_flatMap.2 ⟨other, hother, hrow⟩)
    exact hmax _ hplace' hkey
  refine ⟨hgreatest place, fun ⟨block, version, hblock, hrow, hmax⟩ => ?_⟩
  have hmem : ((key, version), place) ∈ placedRows (keptBlocks blocks) := mem_placedRows.2 ⟨block, hblock, hrow⟩
  obtain ⟨found, hfound⟩ := Option.isSome_iff_exists.1 (h.complete _ hmem)
  obtain ⟨block', version', hblock', hrow', hmax'⟩ := hgreatest found hfound
  have hle := hmax block' (List.mem_of_mem_filter (List.mem_of_getElem? hblock')) _ (List.mem_of_getElem? hrow') rfl
  have hle' := hmax' block (List.mem_of_mem_filter (List.mem_of_getElem? hblock)) _ (List.mem_of_getElem? hrow) rfl
  obtain rfl : version' = version := le_antisymm hle hle'
  rw [hfound, place_unique hversions (mem_placedRows.2 ⟨block', hblock', hrow'⟩) hmem]

theorem pairs_joinRows (h : Indexed entry (placedRows (keptBlocks blocks)))
    {resultKeys : List (ℕ × ℕ)} (hresult : resultKeys.Pairwise fun a b => a.1 = b.1 → a.2 < b.2) :
    (resultKeys.zipIdx.foldl entry.joinRow {}).pairs =
      resultKeys.zipIdx.filterMap fun row => (entry.lookup row.1).map fun place => (row.2, place) := by
  have hstart : Walked entry [] {} := ⟨rfl, nofun, Or.inl rfl⟩
  have hsorted : resultKeys.zipIdx.Pairwise fun a b => a.1.1 = b.1.1 → a.1.2 < b.1.2 := by
    have hkeys : (resultKeys.zipIdx.map Prod.fst).Pairwise fun a b => a.1 = b.1 → a.2 < b.2 := by
      rwa [List.zipIdx_map_fst]
    exact List.pairwise_map.1 hkeys
  have hbounds : ∀ key, (entry.lookup key).isSome → entry.minBlock ≤ key.1 ∧ key.1 ≤ entry.maxBlock := by
    intro key hsome
    obtain ⟨place, hplace⟩ := Option.isSome_iff_exists.1 hsome
    obtain ⟨version, hmem, -⟩ := h.found key place hplace
    exact h.bounds _ hmem
  exact (hstart.run hbounds h.maxBlock_lt (by rwa [List.nil_append])).pairs

/-- **What `applyPatchJoin` returns**: the places that the entry has for the keys of the block. -/
theorem applyPatchJoin_eq (hadd : addBlocks blocks = .ok entry)
    (h : Indexed entry (placedRows (keptBlocks blocks))) {resultKeys : List (ℕ × ℕ)}
    (hresult : resultKeys.Pairwise fun a b => a.1 = b.1 → a.2 < b.2) :
    let result := applyPatchJoin resultKeys entry
    let pairs := resultKeys.zipIdx.filterMap fun row => (entry.lookup row.1).map fun place => (row.2, place)
    result.patchBlocks = (keptBlocks blocks).map JoinPatchBlock.data ∧ result.resultRowIndices = pairs.map Prod.fst ∧
      result.patchBlockIndices = pairs.map (fun pair => pair.2.1) ∧ result.patchRowIndices = pairs.map fun pair => pair.2.2 := by
  intro result pairs
  have hblocks : (entry.blocks.filter fun block => block.dataVersions.length ≠ 0) = (keptBlocks blocks).map JoinPatchBlock.data := by
    rw [blocks_addBlocks hadd, List.filter_eq_self]
    intro data hdata
    obtain ⟨block, hblock, rfl⟩ := List.mem_map.1 hdata
    have hrows : block.rows ≠ 0 := by simpa using (List.mem_filter.1 hblock).2
    rw [block.length_dataVersions]
    simpa [JoinPatchBlock.rows] using hrows
  by_cases hempty : resultKeys.length = 0 ∨ entry.hashMap.toList.isEmpty
  · have hnone : pairs = [] := by
      rw [List.filterMap_eq_nil_iff]
      rintro ⟨key, r⟩ hrow
      rw [Option.map_eq_none_iff]
      rcases hempty with hempty | hempty
      · rw [List.length_eq_zero_iff.1 hempty] at hrow
        cases hrow
      · unfold lookup currentOffsets KeyedSet.find
        rw [List.isEmpty_iff.1 hempty]
        rfl
    have hresult : result = { patchBlocks := entry.blocks.filter fun block => block.dataVersions.length ≠ 0 } := if_pos hempty
    rw [hresult, hnone]
    exact ⟨hblocks, rfl, rfl, rfl⟩
  · have hloop := pairs_joinRows h hresult
    have hresult : result = _ := if_neg hempty
    rw [hresult]
    simp only
    rw [hloop]
    exact ⟨hblocks, rfl, rfl, rfl⟩

theorem exists_lookup_iff (h : Indexed entry (placedRows (keptBlocks blocks))) {key : ℕ × ℕ} :
    (∃ place, entry.lookup key = some place) ↔ ∃ block ∈ blocks, ∃ row ∈ block.keyedRows, row.1 = key := by
  constructor
  · rintro ⟨place, hplace⟩
    obtain ⟨version, hrow, -⟩ := h.found key place hplace
    obtain ⟨block, hblock, hrow⟩ := List.mem_flatMap.1 (mem_flatMap_iff.2 ⟨place, hrow⟩)
    exact ⟨block, hblock, _, hrow, rfl⟩
  · rintro ⟨block, hblock, row, hrow, rfl⟩
    obtain ⟨place, hplace⟩ := mem_flatMap_iff.1 (List.mem_flatMap.2 ⟨block, hblock, hrow⟩)
    exact Option.isSome_iff_exists.1 (h.complete _ hplace)

theorem greatest_perm {blocks blocks' : List (JoinPatchBlock S V)} (hperm : blocks'.Perm blocks) (hversions : DistinctVersions blocks)
    {key place place' : ℕ × ℕ} (h : Greatest blocks key place) (h' : Greatest blocks' key place') :
    (keptBlocks blocks')[place'.1]? = (keptBlocks blocks)[place.1]? ∧ place'.2 = place.2 := by
  obtain ⟨block, version, hblock, hrow, hmax⟩ := h
  obtain ⟨block', version', hblock', hrow', hmax'⟩ := h'
  have hkept : block' ∈ keptBlocks blocks := (hperm.filter _).mem_iff.1 (List.mem_of_getElem? hblock')
  have hle := hmax' block (hperm.mem_iff.2 (List.mem_of_mem_filter (List.mem_of_getElem? hblock))) _ (List.mem_of_getElem? hrow) rfl
  have hle' := hmax block' (List.mem_of_mem_filter hkept) _ (List.mem_of_getElem? hrow') rfl
  obtain rfl : version = version' := le_antisymm hle hle'
  -- The block of the other order has a place in this one, and the row has only one.
  obtain ⟨i, hi⟩ := List.mem_iff_getElem?.1 hkept
  have hagain : ((key, version), (i, place'.2)) ∈ placedRows (keptBlocks blocks) := mem_placedRows.2 ⟨block', hi, hrow'⟩
  rw [place_unique hversions (mem_placedRows.2 ⟨block, hblock, hrow⟩) hagain]
  exact ⟨hblock'.trans hi.symm, rfl⟩

end PatchJoinEntry

open PatchJoinEntry

/-- **The pairs of a patch in the mode `Join`.** Each row of the result whose key occurs in the blocks is paired once, with
the row of the key that has the greatest version; no other row is; and the order of the blocks does not matter. -/
theorem applyPatchJoin_spec {blocks : List (JoinPatchBlock S V)} {resultKeys : List (ℕ × ℕ)} {entry : PatchJoinEntry S V}
    (hnumbers : ∀ block ∈ blocks, ∀ n ∈ block.blockNumbers, n < 2 ^ 64 - 1) (hversions : DistinctVersions blocks)
    (hresult : resultKeys.Pairwise fun a b => a.1 = b.1 → a.2 < b.2) (hadd : addBlocks blocks = .ok entry) :
    let result := applyPatchJoin resultKeys entry
    result.patchBlocks = (keptBlocks blocks).map JoinPatchBlock.data ∧
    (result.patchBlockIndices.length = result.resultRowIndices.length ∧ result.patchRowIndices.length = result.resultRowIndices.length) ∧
    result.resultRowIndices.Pairwise (· < ·) ∧
    (∀ r, r ∈ result.resultRowIndices ↔
      ∃ key, resultKeys[r]? = some key ∧ ∃ block ∈ blocks, ∃ row ∈ block.keyedRows, row.1 = key) ∧
    (∀ r place, (r, place) ∈ result.places ↔ ∃ key, resultKeys[r]? = some key ∧ Greatest blocks key place) ∧
    ∀ blocks', blocks'.Perm blocks → ∃ entry', addBlocks blocks' = .ok entry' ∧
      (applyPatchJoin resultKeys entry').places.map (fun pair => (pair.1, (keptBlocks blocks')[pair.2.1]?, pair.2.2)) =
        result.places.map fun pair => (pair.1, (keptBlocks blocks)[pair.2.1]?, pair.2.2) := by
  intro result
  have hplaces : ∀ {blocks : List (JoinPatchBlock S V)} {entry : PatchJoinEntry S V}, addBlocks blocks = .ok entry →
      Indexed entry (placedRows (keptBlocks blocks)) → (applyPatchJoin resultKeys entry).places =
        resultKeys.zipIdx.filterMap fun row => (entry.lookup row.1).map fun place => (row.2, place) := by
    intro blocks entry hadd h
    obtain ⟨-, hrows, hblockIdx, hrowIdx⟩ := applyPatchJoin_eq hadd h hresult
    unfold PatchToApply.places
    rw [hrows, hblockIdx, hrowIdx, List.zip_map', List.zip_map']
    simp
  have hindexed := Indexed.addBlocks hnumbers hadd
  have hlookup : ∀ key place, entry.lookup key = some place ↔ Greatest blocks key place := fun _ _ =>
    lookup_eq_some_iff hversions hindexed
  obtain ⟨hblocks, hrows, hblockIdx, hrowIdx⟩ := applyPatchJoin_eq hadd hindexed hresult
  rw [← hplaces hadd hindexed] at hrows hblockIdx hrowIdx
  have hmem : ∀ r place, (r, place) ∈ result.places ↔ ∃ key, resultKeys[r]? = some key ∧ entry.lookup key = some place := by
    intro r place
    rw [hplaces hadd hindexed, List.mem_filterMap]
    constructor
    · rintro ⟨⟨key, r'⟩, hrow, hmap⟩
      obtain ⟨found, hfound, heq⟩ := Option.map_eq_some_iff.1 hmap
      obtain ⟨rfl, rfl⟩ := Prod.mk.inj heq
      exact ⟨key, List.mem_zipIdx_iff_getElem?.1 hrow, hfound⟩
    · rintro ⟨key, hkey, hplace⟩
      exact ⟨(key, r), List.mem_zipIdx_iff_getElem?.2 hkey, Option.map_eq_some_iff.2 ⟨place, hplace, rfl⟩⟩
  refine ⟨hblocks, ?_, ?_, fun r => ?_, fun r place => ?_, fun blocks' hperm => ?_⟩
  · exact ⟨by rw [hblockIdx, hrows, List.length_map, List.length_map], by rw [hrowIdx, hrows, List.length_map, List.length_map]⟩
  · have hindices : resultKeys.zipIdx.Pairwise fun a b => a.2 < b.2 := by
      have hrange : (resultKeys.zipIdx.map Prod.snd).Pairwise (· < ·) := by
        rw [List.zipIdx_map_snd]
        exact List.pairwise_lt_range'
      exact List.pairwise_map.1 hrange
    rw [hrows, List.pairwise_map, hplaces hadd hindexed]
    refine hindices.filterMap _ fun a b hab pair hpair pair' hpair' => ?_
    obtain ⟨place, -, rfl⟩ := Option.map_eq_some_iff.1 hpair
    obtain ⟨place', -, rfl⟩ := Option.map_eq_some_iff.1 hpair'
    exact hab
  · have hkeyed := fun key => @exists_lookup_iff _ _ blocks entry hindexed key
    rw [hrows, List.mem_map]
    constructor
    · rintro ⟨⟨_, place⟩, hpair, rfl⟩
      obtain ⟨key, hkey, hplace⟩ := (hmem _ _).1 hpair
      exact ⟨key, hkey, (hkeyed key).1 ⟨place, hplace⟩⟩
    · rintro ⟨key, hkey, hoccurs⟩
      obtain ⟨place, hplace⟩ := (hkeyed key).2 hoccurs
      exact ⟨(r, place), (hmem _ _).2 ⟨key, hkey, hplace⟩, rfl⟩
  · rw [hmem]
    exact exists_congr fun key => and_congr_right fun _ => hlookup key place
  · obtain ⟨entry', hadd'⟩ := (addBlocks_isOk_iff blocks').2 <| by
      have hlimits := (addBlocks_isOk_iff blocks).1 ⟨entry, hadd⟩
      exact ⟨(hperm.filter _).length_eq ▸ hlimits.1, fun block hblock => hlimits.2 block (hperm.mem_iff.1 hblock)⟩
    have hindexed' := Indexed.addBlocks (fun block hblock => hnumbers block (hperm.mem_iff.1 hblock)) hadd'
    have hversions' : DistinctVersions blocks' :=
      ((hperm.flatMap_right JoinPatchBlock.keyedRows).pairwise_iff fun hne heq h => hne heq.symm h.symm).2 hversions
    refine ⟨entry', hadd', ?_⟩
    rw [hplaces hadd' hindexed', hplaces hadd hindexed, List.map_filterMap, List.map_filterMap]
    refine List.filterMap_congr fun row _ => ?_
    rw [Option.map_map, Option.map_map]
    -- Both entries know the same keys, and for each of them the same row.
    have hsame : (∃ place, entry'.lookup row.1 = some place) ↔ ∃ place, entry.lookup row.1 = some place := by
      rw [exists_lookup_iff hindexed', exists_lookup_iff hindexed]
      exact exists_congr fun block => and_congr_left fun _ => hperm.mem_iff
    cases hplace : entry.lookup row.1 with
    | some place =>
      obtain ⟨place', hplace'⟩ := hsame.2 ⟨place, hplace⟩
      obtain ⟨hblock, hrow⟩ :=
        greatest_perm hperm hversions ((hlookup row.1 place).1 hplace) ((lookup_eq_some_iff hversions' hindexed').1 hplace')
      rw [hplace']
      simp [hblock, hrow]
    | none =>
      have hnone : entry'.lookup row.1 = none := by
        by_contra hsome
        obtain ⟨place, hfound⟩ := hsame.1 (Option.ne_none_iff_exists'.1 hsome)
        rw [hplace] at hfound
        cases hfound
      rw [hnone]
      rfl

theorem applyPatchJoin_spec_versions :
    let first : JoinPatchBlock Unit Unit := ⟨[3, 3, 5], [7, 1, 0], { dataVersions := [2, 9, 4] }, rfl, rfl⟩
    let second : JoinPatchBlock Unit Unit := ⟨[3], [7], { dataVersions := [8] }, rfl, rfl⟩
    ∃ entry, addBlocks [first, second] = .ok entry ∧ (1, (1, 0)) ∈ (applyPatchJoin [(4, 0), (3, 7), (5, 2)] entry).places ∧
      0 ∉ (applyPatchJoin [(4, 0), (3, 7), (5, 2)] entry).resultRowIndices := by
  intro first second
  obtain ⟨entry, hadd⟩ := (addBlocks_isOk_iff [first, second]).2 ⟨by decide, by decide⟩
  obtain ⟨-, -, -, hrows, hplaces, -⟩ := @applyPatchJoin_spec Unit Unit [first, second] [(4, 0), (3, 7), (5, 2)] entry (by decide)
    (by unfold DistinctVersions; decide) (by decide) hadd
  refine ⟨entry, hadd, (hplaces 1 (1, 0)).2 ⟨(3, 7), rfl, second, 8, rfl, rfl, by decide⟩, fun h => ?_⟩
  obtain ⟨key, hkey, block, hblock, row, hrow, rfl⟩ := (hrows 0).1 h
  have hkeys : ∀ block ∈ [first, second], ∀ row ∈ block.keyedRows, row.1 ≠ (4, 0) := by decide
  exact hkeys block hblock row hrow (Option.some.inj hkey).symm

end MergeTree
