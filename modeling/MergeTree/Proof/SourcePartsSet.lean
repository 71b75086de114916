import MergeTree.Proof.MergePredicate
import MergeTree.Spec.SourcePartsSet

/-!
# The source parts of a patch part are those of its updates

Each lightweight update has its own data version and touches disjoint parts. A set that was built from updates and
merged in any way is determined by what its updates touched (`Recorded.unique`):

* `Recorded.keepsRecords`: it has the extremes of the versions that each part was touched with, and its sets of parts by
  version are the ones that `buildSourcePartsSet` builds from them;
* `KeepsRecords.getPatchParts_spec`: the patch applies to a part through exactly the recorded parts inside it that
  were touched after its data version, unless the part crosses a recorded one: there the walk over the recorded parts
  stops (`not_getPatchParts_crossing`);
* `KeepsRecords.reads_readBinary`: the file has all of it.
-/

namespace MergeTree

section Folds

variable {α β : Type} [LinearOrder β]

theorem isLeast_foldl_min (f : α → β) (l : List α) (b : β) :
    IsLeast {c | c = b ∨ ∃ a ∈ l, c = f a} (l.foldl (fun c a => min c (f a)) b) := by
  induction l generalizing b with
  | nil => simp [IsLeast, lowerBounds]
  | cons a l ih =>
    obtain ⟨hmem, hle⟩ := ih (min b (f a))
    rw [List.foldl_cons]
    refine ⟨?_, ?_⟩
    · rcases hmem with h | ⟨other, hother, h⟩
      · rw [h]
        rcases min_choice b (f a) with hmin | hmin
        · exact Or.inl hmin
        · exact Or.inr ⟨a, List.mem_cons_self, hmin⟩
      · exact Or.inr ⟨other, List.mem_cons_of_mem _ hother, h⟩
    · have hfirst := hle (Or.inl rfl)
      rintro c (rfl | ⟨other, hother, rfl⟩)
      · exact hfirst.trans (min_le_left _ _)
      · rcases List.mem_cons.1 hother with rfl | hother
        · exact hfirst.trans (min_le_right _ _)
        · exact hle (Or.inr ⟨other, hother, rfl⟩)

theorem isGreatest_foldl_max (f : α → β) (l : List α) (b : β) :
    IsGreatest {c | c = b ∨ ∃ a ∈ l, c = f a} (l.foldl (fun c a => max c (f a)) b) :=
  isLeast_foldl_min (β := βᵒᵈ) f l b

end Folds

variable [IntText]

/-- **Lightweight updates**, by data version: the names of the parts that each one touches. -/
structure SourcePartUpdates where
  touched : ℕ → Set String
  version_lt : ∀ v, (touched v).Nonempty → v < 2 ^ 64
  parsed : ∀ v, ∀ name ∈ touched v, ∃ info, fromPartName name minFormatVersionWithCustomPartitioning = .ok info
  disjoint : ∀ v, ∀ a ∈ touched v, ∀ b ∈ touched v, a ≠ b → ∀ p q, fromPartName a minFormatVersionWithCustomPartitioning = .ok p →
    fromPartName b minFormatVersionWithCustomPartitioning = .ok q → p.IsDisjoint q

/-- **A set of source parts, with what the updates behind it touched**: names and data versions. -/
inductive Recorded (updates : SourcePartUpdates) : SourcePartsSetForPatch → Set (String × ℕ) → Prop
  | build {names : List String} {v : ℕ} {s : SourcePartsSetForPatch} (hnodup : names.Nodup)
      (htouched : ∀ name ∈ names, name ≠ "" → name ∈ updates.touched v) (h : SourcePartsSetForPatch.build names v = .ok s) :
      Recorded updates s {r | (r.1 ∈ names ∧ r.1 ≠ "") ∧ r.2 = v}
  | merge {parts : List (SourcePartsSetForPatch × Set (String × ℕ))} {s : SourcePartsSetForPatch}
      (hparts : ∀ p ∈ parts, Recorded updates p.1 p.2) (h : SourcePartsSetForPatch.merge (parts.map Prod.fst) = .ok s) :
      Recorded updates s {r | ∃ p ∈ parts, r ∈ p.2}

variable {updates : SourcePartUpdates} {s : SourcePartsSetForPatch} {name : String} {v : ℕ}

/-! ## Parts by version -/

/-- The sets of parts hold these names under these versions. -/
structure Filed (sets : SourcePartsByVersion) (records : Set (String × ℕ)) : Prop where
  mem : ∀ v T, (v, T) ∈ sets → (∃ name, (name, v) ∈ records) ∧ T.formatVersion = minFormatVersionWithCustomPartitioning ∧
    ∀ e : Entry, e ∈ T ↔ (e.2, v) ∈ records ∧ fromPartName e.2 minFormatVersionWithCustomPartitioning = .ok e.1
  exists_set : ∀ r ∈ records, ∃ T, (r.2, T) ∈ sets

namespace Filed

variable {sets sets' : SourcePartsByVersion} {records : Set (String × ℕ)}

theorem empty : Filed .empty ∅ :=
  ⟨fun _ _ h => absurd h (KeyedSet.notMem_empty _), fun _ h => h.elim⟩

theorem unique (h : Filed sets records) (h' : Filed sets' records) : sets = sets' := by
  have hsub : ∀ {sets sets' : SourcePartsByVersion}, Filed sets records → Filed sets' records → ∀ a ∈ sets, a ∈ sets' := by
    intro sets sets' h h' a ha
    obtain ⟨v, T⟩ := a
    obtain ⟨⟨name, hname⟩, hversion, hmem⟩ := h.mem v T ha
    obtain ⟨T', hT'⟩ := h'.exists_set _ hname
    obtain ⟨-, hversion', hmem'⟩ := h'.mem v T' hT'
    have hinfo : T.partInfoToName = T'.partInfoToName := KeyedSet.ext_of_mem fun e => (hmem e).trans (hmem' e).symm
    have heq : T = T' := by
      cases T
      cases T'
      simp_all
    rw [heq]
    exact hT'
  exact KeyedSet.ext_of_mem fun a => ⟨hsub h h' a, hsub h' h a⟩

theorem add (h : Filed sets records) (htouched : ∀ r ∈ records, r.1 ∈ updates.touched r.2) (hname : name ∈ updates.touched v)
    (hnew : (name, v) ∉ records) : ∃ sets', sets.add v name = .ok sets' ∧ Filed sets' (insert (name, v) records) := by
  obtain ⟨p, hp⟩ := updates.parsed v name hname
  set T : ActiveDataPartSet := ((sets.find v).map Prod.snd).getD {} with hT
  -- the set of the version, which is empty if there is none
  have hset : T.formatVersion = minFormatVersionWithCustomPartitioning ∧
      ∀ e : Entry, e ∈ T ↔ (e.2, v) ∈ records ∧ fromPartName e.2 minFormatVersionWithCustomPartitioning = .ok e.1 := by
    cases hfind : sets.find v with
    | none =>
      rw [hfind] at hT
      simp only [Option.map_none, Option.getD_none] at hT
      refine ⟨by rw [hT], fun e => ⟨fun he => ?_, fun he => ?_⟩⟩
      · rw [hT] at he
        exact absurd he (KeyedSet.notMem_empty _)
      · obtain ⟨T', hT'⟩ := h.exists_set _ he.1
        exact absurd rfl (KeyedSet.find_eq_none.1 hfind _ hT')
    | some found =>
      obtain ⟨hfound, rfl⟩ := KeyedSet.find_eq_some.1 hfind
      rw [hfind] at hT
      simp only [Option.map_some, Option.getD_some] at hT
      rw [hT]
      exact (h.mem found.1 found.2 hfound).2
  have hlaid : T.Laid := by
    refine ⟨fun e he => fromPartName_proper ((hset.2 e).1 he).2, fun e he f hf hef => ?_⟩
    obtain ⟨he, hep⟩ := (hset.2 e).1 he
    obtain ⟨hf, hfp⟩ := (hset.2 f).1 hf
    refine updates.disjoint v e.2 (htouched _ he) f.2 (htouched _ hf) (fun heq => hef ?_) e.1 f.1 hep hfp
    rw [heq, hfp] at hep
    exact Prod.ext (Except.ok.inj hep).symm heq
  have hproper : p.Proper := fromPartName_proper hp
  have hdisjoint : ∀ e ∈ T, p.IsDisjoint e.1 := by
    intro e he
    obtain ⟨he, hep⟩ := (hset.2 e).1 he
    refine updates.disjoint v name hname e.2 (htouched _ he) (fun heq => hnew ?_) p e.1 hp hep
    rwa [heq]
  have hok := ActiveDataPartSet.addImpl_ok hlaid hproper name
  have hadded : (T.addImpl p name).outcome = .added := by
    refine hok.added.2 ⟨?_, fun e he => Or.inl (hdisjoint e he)⟩
    rintro ⟨e, he, hc⟩
    exact hc.not_isDisjoint hproper.blocks (hdisjoint e he).symm
  have hname' : T.addName name = ((T.addImpl p name).set, .ok (true, (T.addImpl p name).replacedParts)) := by
    unfold ActiveDataPartSet.addName ActiveDataPartSet.add
    rw [hset.1, hp]
    simp [hadded]
  refine ⟨(sets.erase v).emplace (v, (T.addImpl p name).set), ?_, ?_, ?_⟩
  · unfold SourcePartsByVersion.add
    simp only [← hT, hname']
  · intro w U hU
    rcases (KeyedSet.mem_emplace_erase (a := (v, (T.addImpl p name).set))).1 hU with heq | ⟨hmem, hne⟩
    · obtain ⟨rfl, rfl⟩ := Prod.mk.inj heq
      refine ⟨⟨name, Set.mem_insert _ _⟩, (ActiveDataPartSet.addImpl_formatVersion T p name).trans hset.1, fun e => ?_⟩
      rw [hok.mem_set hadded e, hset.2 e, Set.mem_insert_iff]
      constructor
      · rintro (⟨⟨he, hep⟩, -⟩ | rfl)
        · exact ⟨Or.inr he, hep⟩
        · exact ⟨Or.inl rfl, hp⟩
      · rintro ⟨he | he, hep⟩
        · obtain ⟨he, -⟩ := Prod.mk.inj he
          rw [he, hp] at hep
          exact Or.inr (Prod.ext (Except.ok.inj hep).symm he)
        · have hed := (hset.2 e).2 ⟨he, hep⟩
          exact Or.inl ⟨⟨he, hep⟩, fun hc => hc.not_isDisjoint (hlaid.proper e hed).blocks (hdisjoint e hed)⟩
    · obtain ⟨⟨other, hother⟩, hversion, hrest⟩ := h.mem w U hmem
      refine ⟨⟨other, Set.mem_insert_of_mem _ hother⟩, hversion, fun e => ?_⟩
      rw [hrest e, Set.mem_insert_iff]
      have : (e.2, w) ≠ (name, v) := fun heq => hne (Prod.mk.inj heq).2
      tauto
  · intro r hr
    rcases Set.mem_insert_iff.1 hr with rfl | hr
    · exact ⟨_, (KeyedSet.mem_emplace_erase (a := (v, (T.addImpl p name).set))).2 (Or.inl rfl)⟩
    · obtain ⟨U, hU⟩ := h.exists_set r hr
      by_cases heq : r.2 = v
      · exact ⟨(T.addImpl p name).set, (KeyedSet.mem_emplace_erase (a := (v, (T.addImpl p name).set))).2 (Or.inl (by rw [heq]))⟩
      · exact ⟨U, (KeyedSet.mem_emplace_erase (a := (v, (T.addImpl p name).set))).2 (Or.inr ⟨hU, heq⟩)⟩

end Filed

namespace SourcePartsSetForPatch

theorem addByVersion_spec {parts : List (String × ℕ × ℕ)} (hparts : parts.Pairwise fun a b => a.1 ≠ b.1)
    (htouched : ∀ part ∈ parts, part.1 ∈ updates.touched part.2.2) :
    ∃ sets, addByVersion parts .empty = .ok sets ∧ Filed sets {r | ∃ part ∈ parts, r = (part.1, part.2.2)} := by
  -- along the list, with the names filed before
  have hrun : ∀ (parts : List (String × ℕ × ℕ)) (sets : SourcePartsByVersion) (records : Set (String × ℕ)), Filed sets records →
      (∀ r ∈ records, r.1 ∈ updates.touched r.2) → parts.Pairwise (fun a b => a.1 ≠ b.1) →
      (∀ part ∈ parts, part.1 ∈ updates.touched part.2.2 ∧ ∀ r ∈ records, r.1 ≠ part.1) →
      ∃ sets', addByVersion parts sets = .ok sets' ∧ Filed sets' (records ∪ {r | ∃ part ∈ parts, r = (part.1, part.2.2)}) := by
    intro parts
    induction parts with
    | nil =>
      intro sets records h _ _ _
      refine ⟨sets, rfl, ?_⟩
      convert h using 1
      ext r
      simp
    | cons part parts ih =>
      intro sets records h htouched hpairwise hparts
      rw [List.pairwise_cons] at hpairwise
      obtain ⟨hname, hnew⟩ := hparts part List.mem_cons_self
      obtain ⟨sets₁, hadd, hfiled⟩ := h.add htouched hname fun hr => hnew _ hr rfl
      have htouched₁ : ∀ r ∈ insert (part.1, part.2.2) records, r.1 ∈ updates.touched r.2 := by
        rintro r (rfl | hr)
        · exact hname
        · exact htouched r hr
      obtain ⟨sets₂, hrest, hfiled₂⟩ := ih sets₁ _ hfiled htouched₁ hpairwise.2 fun other hother => by
        refine ⟨(hparts other (List.mem_cons_of_mem _ hother)).1, ?_⟩
        rintro r (rfl | hr)
        · exact hpairwise.1 other hother
        · exact (hparts other (List.mem_cons_of_mem _ hother)).2 r hr
      refine ⟨sets₂, ?_, ?_⟩
      · unfold addByVersion at hrest ⊢
        rw [List.foldlM_cons, hadd]
        exact hrest
      · convert hfiled₂ using 1
        ext r
        simp only [Set.mem_union, Set.mem_insert_iff, Set.mem_ofPred_eq, List.mem_cons, exists_eq_or_imp]
        tauto
  obtain ⟨sets, hsets, hfiled⟩ := hrun parts .empty ∅ Filed.empty (fun _ h => h.elim) hparts fun part hpart =>
    ⟨htouched part hpart, fun _ h => h.elim⟩
  exact ⟨sets, hsets, by rwa [Set.empty_union] at hfiled⟩

/-- The least first version, in the order of the map. -/
def leastVersion (parts : List (String × ℕ × ℕ)) : ℕ :=
  match parts with | [] => 0 | part :: rest => rest.foldl (fun v part => min v part.2.1) part.2.1

/-- The greatest last version. -/
def greatestVersion (parts : List (String × ℕ × ℕ)) : ℕ :=
  match parts with | [] => 0 | part :: rest => rest.foldl (fun v part => max v part.2.2) part.2.2

theorem buildSourcePartsSet_eq_ok {sets : SourcePartsByVersion} (h : addByVersion s.minMaxVersionsByPart.toList .empty = .ok sets) :
    s.buildSourcePartsSet = .ok ⟨sets, s.minMaxVersionsByPart, leastVersion s.minMaxVersionsByPart.toList,
      greatestVersion s.minMaxVersionsByPart.toList⟩ := by
  unfold buildSourcePartsSet
  simp only [h]
  rfl

end SourcePartsSetForPatch

/-! ## Versions by part -/

/-- The map has the extremes of the versions that each name was recorded with. -/
structure Versions (parts : MinMaxVersionsByPart) (records : Set (String × ℕ)) : Prop where
  extremes : ∀ part ∈ parts, IsLeast {v | (part.1, v) ∈ records} part.2.1 ∧ IsGreatest {v | (part.1, v) ∈ records} part.2.2
  exists_part : ∀ r ∈ records, ∃ part ∈ parts, part.1 = r.1

namespace Versions

variable {parts parts' : MinMaxVersionsByPart} {records records' : Set (String × ℕ)}

omit [IntText] in
theorem empty : Versions .empty ∅ := ⟨fun _ h => absurd h (KeyedSet.notMem_empty _), fun _ h => h.elim⟩

omit [IntText] in
theorem unique (h : Versions parts records) (h' : Versions parts' records) : parts = parts' := by
  have hsub : ∀ {parts parts' : MinMaxVersionsByPart}, Versions parts records → Versions parts' records → ∀ a ∈ parts, a ∈ parts' := by
    intro parts parts' h h' a ha
    obtain ⟨hleast, hgreatest⟩ := h.extremes a ha
    obtain ⟨b, hb, hname⟩ := h'.exists_part _ hleast.1
    obtain ⟨hleast', hgreatest'⟩ := h'.extremes b hb
    rw [hname] at hleast' hgreatest'
    have heq : b = a := Prod.ext hname (Prod.ext (hleast'.unique hleast) (hgreatest'.unique hgreatest))
    rwa [heq] at hb
  exact KeyedSet.ext_of_mem fun a => ⟨hsub h h' a, hsub h' h a⟩

omit [IntText] in
theorem mergeVersions (h : Versions parts records) {part : String × ℕ × ℕ}
    (hpart : IsLeast {v | (part.1, v) ∈ records'} part.2.1 ∧ IsGreatest {v | (part.1, v) ∈ records'} part.2.2) :
    Versions (SourcePartsSetForPatch.mergeVersions parts part) (records ∪ {r | r ∈ records' ∧ r.1 = part.1}) := by
  have hsame : {v | (part.1, v) ∈ records ∪ {r | r ∈ records' ∧ r.1 = part.1}} = {v | (part.1, v) ∈ records} ∪ {v | (part.1, v) ∈ records'} := by
    ext v
    simp
  have hother : ∀ name, name ≠ part.1 → {v | (name, v) ∈ records ∪ {r | r ∈ records' ∧ r.1 = part.1}} = {v | (name, v) ∈ records} := by
    intro name hne
    ext v
    simp [hne]
  unfold SourcePartsSetForPatch.mergeVersions
  cases hfind : parts.find part.1 with
  | none =>
    have hnew := KeyedSet.find_eq_none.1 hfind
    have hnone : {v | (part.1, v) ∈ records} = ∅ := by
      refine Set.eq_empty_of_forall_notMem fun v hv => ?_
      obtain ⟨found, hfound, hname⟩ := h.exists_part _ hv
      exact hnew found hfound hname
    refine ⟨fun a ha => ?_, fun r hr => ?_⟩
    · rcases KeyedSet.mem_emplace.1 ha with ha | ⟨rfl, -⟩
      · rw [hother a.1 (hnew a ha)]
        exact h.extremes a ha
      · rwa [hsame, hnone, Set.empty_union]
    · rcases hr with hr | hr
      · obtain ⟨found, hfound, hname⟩ := h.exists_part r hr
        exact ⟨found, KeyedSet.mem_emplace.2 (Or.inl hfound), hname⟩
      · exact ⟨part, KeyedSet.mem_emplace.2 (Or.inr ⟨rfl, hnew⟩), hr.2.symm⟩
  | some found =>
    obtain ⟨hfound, hname⟩ := KeyedSet.find_eq_some.1 hfind
    have hmem : ∀ b, b ∈ (parts.erase part.1).emplace (part.1, min found.2.1 part.2.1, max found.2.2 part.2.2) ↔
        b = (part.1, min found.2.1 part.2.1, max found.2.2 part.2.2) ∨ (b ∈ parts ∧ b.1 ≠ part.1) := fun b =>
      KeyedSet.mem_emplace_erase (a := (part.1, min found.2.1 part.2.1, max found.2.2 part.2.2))
    refine ⟨fun a ha => ?_, fun r hr => ?_⟩
    · rcases (hmem a).1 ha with rfl | ⟨ha, hne⟩
      · have hextremes := h.extremes found hfound
        rw [hname] at hextremes
        rw [hsame]
        exact ⟨hextremes.1.union hpart.1, hextremes.2.union hpart.2⟩
      · rw [hother a.1 hne]
        exact h.extremes a ha
    · by_cases heq : r.1 = part.1
      · exact ⟨_, (hmem _).2 (Or.inl rfl), heq.symm⟩
      · rcases hr with hr | hr
        · obtain ⟨a, ha, ha'⟩ := h.exists_part r hr
          exact ⟨a, (hmem a).2 (Or.inr ⟨ha, ha' ▸ heq⟩), ha'⟩
        · exact absurd hr.2 heq

omit [IntText] in
theorem mergeSet (h : Versions parts records) {set : MinMaxVersionsByPart} (hset : Versions set records') :
    Versions (set.toList.foldl SourcePartsSetForPatch.mergeVersions parts) (records ∪ records') := by
  have hrun : ∀ (l : List (String × ℕ × ℕ)) (parts : MinMaxVersionsByPart) (records : Set (String × ℕ)), (∀ part ∈ l, part ∈ set) →
      Versions parts records →
        Versions (l.foldl SourcePartsSetForPatch.mergeVersions parts) (records ∪ {r | r ∈ records' ∧ ∃ part ∈ l, r.1 = part.1}) := by
    intro l
    induction l with
    | nil =>
      intro parts records _ h
      simpa using h
    | cons part l ih =>
      intro parts records hl h
      have hstep := ih _ _ (fun other hother => hl other (List.mem_cons_of_mem _ hother))
        (h.mergeVersions (hset.extremes part (hl part List.mem_cons_self)))
      rw [List.foldl_cons]
      convert hstep using 1
      ext r
      simp only [Set.mem_union, Set.mem_ofPred_eq, List.mem_cons, exists_eq_or_imp]
      tauto
  have hall := hrun set.toList parts records (fun _ hpart => hpart) h
  have heq : {r | r ∈ records' ∧ ∃ part ∈ set.toList, r.1 = part.1} = records' := by
    ext r
    refine ⟨fun hr => hr.1, fun hr => ⟨hr, ?_⟩⟩
    obtain ⟨part, hpart, hname⟩ := hset.exists_part r hr
    exact ⟨part, hpart, hname.symm⟩
  rwa [heq] at hall

omit [IntText] in
theorem mergeSets : ∀ {sets : List (SourcePartsSetForPatch × Set (String × ℕ))} {parts : MinMaxVersionsByPart} {records : Set (String × ℕ)},
    Versions parts records → (∀ p ∈ sets, Versions p.1.minMaxVersionsByPart p.2) →
      Versions ((sets.map Prod.fst).foldl (fun merged set => set.minMaxVersionsByPart.toList.foldl SourcePartsSetForPatch.mergeVersions merged)
        parts) (records ∪ {r | ∃ p ∈ sets, r ∈ p.2}) := by
  intro sets
  induction sets with
  | nil =>
    intro parts records h _
    simpa using h
  | cons p sets ih =>
    intro parts records h hsets
    have hstep := ih (h.mergeSet (hsets p List.mem_cons_self)) fun q hq => hsets q (List.mem_cons_of_mem _ hq)
    rw [List.map_cons, List.foldl_cons]
    convert hstep using 1
    ext r
    simp only [Set.mem_union, Set.mem_ofPred_eq, List.mem_cons, exists_eq_or_imp]
    tauto

theorem filed (h : Versions parts records) (htouched : ∀ r ∈ records, r.1 ∈ updates.touched r.2) :
    ∃ sets, SourcePartsSetForPatch.addByVersion parts.toList .empty = .ok sets ∧
      Filed sets {r | IsGreatest {v | (r.1, v) ∈ records} r.2} := by
  obtain ⟨sets, hsets, hfiled⟩ := @SourcePartsSetForPatch.addByVersion_spec _ updates _
    (parts.sorted.imp fun hlt => hlt.ne) fun part hpart => htouched (part.1, part.2.2) (h.extremes part hpart).2.1
  refine ⟨sets, hsets, ?_⟩
  convert hfiled using 1
  ext r
  constructor
  · intro hr
    obtain ⟨part, hpart, hname⟩ := h.exists_part _ hr.1
    have hgreatest := (h.extremes part hpart).2
    rw [hname] at hgreatest
    exact ⟨part, hpart, Prod.ext hname.symm (hr.unique hgreatest)⟩
  · rintro ⟨part, hpart, rfl⟩
    exact (h.extremes part hpart).2

end Versions

/-! ## What builds and merges leave -/

namespace SourcePartsSetForPatch

omit [IntText] in
theorem leastVersion_isLeast {parts : List (String × ℕ × ℕ)} (h : parts ≠ []) :
    IsLeast {w | ∃ part ∈ parts, w = part.2.1} (leastVersion parts) := by
  cases parts with
  | nil => exact absurd rfl h
  | cons part rest =>
    have hset : {w | ∃ other ∈ part :: rest, w = other.2.1} = {w | w = part.2.1 ∨ ∃ other ∈ rest, w = other.2.1} := by
      ext w
      simp
    rw [hset]
    exact isLeast_foldl_min (fun part : String × ℕ × ℕ => part.2.1) rest part.2.1

omit [IntText] in
theorem greatestVersion_isGreatest {parts : List (String × ℕ × ℕ)} (h : parts ≠ []) :
    IsGreatest {w | ∃ part ∈ parts, w = part.2.2} (greatestVersion parts) := by
  cases parts with
  | nil => exact absurd rfl h
  | cons part rest =>
    have hset : {w | ∃ other ∈ part :: rest, w = other.2.2} = {w | w = part.2.2 ∨ ∃ other ∈ rest, w = other.2.2} := by
      ext w
      simp
    rw [hset]
    exact isGreatest_foldl_max (fun part : String × ℕ × ℕ => part.2.2) rest part.2.2

end SourcePartsSetForPatch

/-- **What holds of a set of source parts** and the records behind it. -/
structure KeepsRecords (updates : SourcePartUpdates) (s : SourcePartsSetForPatch) (records : Set (String × ℕ)) : Prop where
  versions : Versions s.minMaxVersionsByPart records
  touched : ∀ r ∈ records, r.1 ∈ updates.touched r.2
  rebuilt : s.buildSourcePartsSet = .ok s

namespace KeepsRecords

variable {records : Set (String × ℕ)}

theorem of_versions {parts : MinMaxVersionsByPart} (h : Versions parts records) (htouched : ∀ r ∈ records, r.1 ∈ updates.touched r.2) :
    ∃ s, SourcePartsSetForPatch.buildSourcePartsSet { minMaxVersionsByPart := parts } = .ok s ∧ KeepsRecords updates s records := by
  obtain ⟨sets, hsets, -⟩ := h.filed htouched
  exact ⟨_, SourcePartsSetForPatch.buildSourcePartsSet_eq_ok (s := { minMaxVersionsByPart := parts }) hsets, h, htouched,
    SourcePartsSetForPatch.buildSourcePartsSet_eq_ok hsets⟩

theorem eq_built (h : KeepsRecords updates s records) : ∃ sets, Filed sets {r | IsGreatest {v | (r.1, v) ∈ records} r.2} ∧
    s = ⟨sets, s.minMaxVersionsByPart, SourcePartsSetForPatch.leastVersion s.minMaxVersionsByPart.toList,
      SourcePartsSetForPatch.greatestVersion s.minMaxVersionsByPart.toList⟩ := by
  obtain ⟨sets, hsets, hfiled⟩ := h.versions.filed h.touched
  have hbuilt := h.rebuilt.symm.trans (SourcePartsSetForPatch.buildSourcePartsSet_eq_ok hsets)
  exact ⟨sets, hfiled, Except.ok.inj hbuilt⟩

theorem filed (h : KeepsRecords updates s records) : Filed s.sourcePartsByVersion {r | IsGreatest {v | (r.1, v) ∈ records} r.2} := by
  obtain ⟨sets, hfiled, heq⟩ := h.eq_built
  rw [heq]
  exact hfiled

/-- **The records determine the set.** -/
theorem unique {s' : SourcePartsSetForPatch} (h : KeepsRecords updates s records) (h' : KeepsRecords updates s' records) : s = s' := by
  obtain ⟨sets, hfiled, heq⟩ := h.eq_built
  obtain ⟨sets', hfiled', heq'⟩ := h'.eq_built
  have hparts := h.versions.unique h'.versions
  rw [heq, heq', hfiled.unique hfiled', hparts]

theorem dataVersions (h : KeepsRecords updates s records) (hne : records.Nonempty) :
    IsLeast {v | ∃ name, (name, v) ∈ records} s.minDataVersion ∧ IsGreatest {v | ∃ name, (name, v) ∈ records} s.maxDataVersion := by
  obtain ⟨sets, -, heq⟩ := h.eq_built
  obtain ⟨r, hr⟩ := hne
  obtain ⟨part, hpart, -⟩ := h.versions.exists_part r hr
  have hlist : s.minMaxVersionsByPart.toList ≠ [] := List.ne_nil_of_mem hpart
  obtain ⟨⟨least, hleast, hmin⟩, hlower⟩ := SourcePartsSetForPatch.leastVersion_isLeast hlist
  obtain ⟨⟨greatest, hgreatest, hmax⟩, hupper⟩ := SourcePartsSetForPatch.greatestVersion_isGreatest hlist
  rw [heq]
  refine ⟨⟨⟨least.1, ?_⟩, ?_⟩, ⟨greatest.1, ?_⟩, ?_⟩
  · simp only [hmin]
    exact (h.versions.extremes least hleast).1.1
  · rintro v ⟨name, hv⟩
    obtain ⟨found, hfound, hname⟩ := h.versions.exists_part _ hv
    refine (hlower ⟨found, hfound, rfl⟩).trans ((h.versions.extremes found hfound).1.2 ?_)
    rwa [hname]
  · simp only [hmax]
    exact (h.versions.extremes greatest hgreatest).2.1
  · rintro v ⟨name, hv⟩
    obtain ⟨found, hfound, hname⟩ := h.versions.exists_part _ hv
    refine le_trans ((h.versions.extremes found hfound).2.2 ?_) (hupper ⟨found, hfound, rfl⟩)
    rwa [hname]

end KeepsRecords

/-- What `build` leaves after some names. -/
structure BuiltFrom (s : SourcePartsSetForPatch) (names : List String) (v : ℕ) : Prop where
  versions : Versions s.minMaxVersionsByPart {r | r.1 ∈ names ∧ r.2 = v}
  filed : Filed s.sourcePartsByVersion {r | r.1 ∈ names ∧ r.2 = v}
  dataVersions : s.minDataVersion = (if names = [] then 0 else v) ∧ s.maxDataVersion = if names = [] then 0 else v

namespace BuiltFrom

variable {names : List String}

theorem nil : BuiltFrom {} [] v := by
  have hnone : {r : String × ℕ | r.1 ∈ ([] : List String) ∧ r.2 = v} = ∅ := Set.eq_empty_of_forall_notMem fun r hr => by simp at hr
  exact ⟨hnone ▸ Versions.empty, hnone ▸ Filed.empty, rfl, rfl⟩

theorem isEmpty_iff (h : BuiltFrom s names v) : s.minMaxVersionsByPart.toList.isEmpty = true ↔ names = [] := by
  rw [List.isEmpty_iff]
  constructor
  · intro hnil
    refine List.eq_nil_iff_forall_not_mem.2 fun name hname => ?_
    obtain ⟨part, hpart, -⟩ := h.versions.exists_part (name, v) ⟨hname, rfl⟩
    rw [KeyedSet.mem_def, hnil] at hpart
    cases hpart
  · rintro rfl
    refine List.eq_nil_iff_forall_not_mem.2 fun part hpart => ?_
    simpa using (h.versions.extremes part hpart).1.1

theorem addSourcePart (h : BuiltFrom s names v) (htouched : ∀ name ∈ names, name ∈ updates.touched v) (hname : name ∈ updates.touched v)
    (hnew : name ∉ names) : ∃ s', s.addSourcePart name v = .ok s' ∧ BuiltFrom s' (names ++ [name]) v := by
  have hrecords : {r : String × ℕ | r.1 ∈ names ++ [name] ∧ r.2 = v} = insert (name, v) {r | r.1 ∈ names ∧ r.2 = v} := by
    ext r
    obtain ⟨a, b⟩ := r
    simp only [List.mem_append, List.mem_singleton, Set.mem_ofPred_eq, Set.mem_insert_iff, Prod.mk.injEq]
    tauto
  obtain ⟨sets, hadd, hfiled⟩ := h.filed.add (fun r hr => hr.2 ▸ htouched r.1 hr.1) hname fun hr => hnew hr.1
  have hfind : s.minMaxVersionsByPart.find name = none := by
    refine KeyedSet.find_eq_none.2 fun part hpart hkey => hnew ?_
    have := (h.versions.extremes part hpart).1.1.1
    rwa [hkey] at this
  have hadded : s.addSourcePart name v = .ok
      ⟨sets, s.minMaxVersionsByPart.emplace (name, v, v),
        if s.minMaxVersionsByPart.toList.isEmpty then v else min s.minDataVersion v,
        if s.minMaxVersionsByPart.toList.isEmpty then v else max s.maxDataVersion v⟩ := by
    unfold SourcePartsSetForPatch.addSourcePart
    simp only [hfind, Option.isSome_none, Bool.false_eq_true, if_false, hadd]
    rfl
  refine ⟨_, hadded, ?_, hrecords ▸ hfiled, ?_⟩
  · have hversions := @Versions.mergeVersions _ _ {r | r.1 ∈ [name] ∧ r.2 = v} h.versions (name, v, v)
      (by simp [IsLeast, IsGreatest, lowerBounds, upperBounds])
    unfold SourcePartsSetForPatch.mergeVersions at hversions
    simp only [hfind] at hversions
    rw [hrecords]
    convert hversions using 1
    ext r
    obtain ⟨a, b⟩ := r
    simp only [List.mem_singleton, Set.mem_ofPred_eq, Set.mem_insert_iff, Set.mem_union, Prod.mk.injEq]
    tauto
  · have hempty := h.isEmpty_iff
    by_cases hnil : names = []
    · simp [hempty.2 hnil]
    · have hfalse : s.minMaxVersionsByPart.toList.isEmpty = false := by simpa using mt hempty.1 hnil
      simp [hfalse, h.dataVersions, hnil]

theorem keepsRecords (h : BuiltFrom s names v) (htouched : ∀ name ∈ names, name ∈ updates.touched v) :
    KeepsRecords updates s {r | r.1 ∈ names ∧ r.2 = v} := by
  have htouched' : ∀ r ∈ {r : String × ℕ | r.1 ∈ names ∧ r.2 = v}, r.1 ∈ updates.touched r.2 := fun r hr => hr.2 ▸ htouched r.1 hr.1
  obtain ⟨sets, hsets, hfiled⟩ := h.versions.filed htouched'
  -- every name has the one version
  have hone : {r : String × ℕ | IsGreatest {w | (r.1, w) ∈ {r : String × ℕ | r.1 ∈ names ∧ r.2 = v}} r.2} = {r | r.1 ∈ names ∧ r.2 = v} := by
    ext r
    constructor
    · exact fun hr => hr.1
    · rintro ⟨hname, hv⟩
      exact ⟨⟨hname, hv⟩, fun w hw => (hw.2.trans hv.symm).le⟩
  rw [hone] at hfiled
  refine ⟨h.versions, htouched', ?_⟩
  rw [SourcePartsSetForPatch.buildSourcePartsSet_eq_ok hsets, hfiled.unique h.filed]
  have hleast : SourcePartsSetForPatch.leastVersion s.minMaxVersionsByPart.toList = s.minDataVersion ∧
      SourcePartsSetForPatch.greatestVersion s.minMaxVersionsByPart.toList = s.maxDataVersion := by
    rw [h.dataVersions.1, h.dataVersions.2]
    by_cases hnil : names = []
    · have hlist := List.isEmpty_iff.1 (h.isEmpty_iff.2 hnil)
      rw [hlist, if_pos hnil]
      exact ⟨rfl, rfl⟩
    · have hlist : s.minMaxVersionsByPart.toList ≠ [] := fun hl => hnil (h.isEmpty_iff.1 (List.isEmpty_iff.2 hl))
      obtain ⟨part, hpart, hmin⟩ := (SourcePartsSetForPatch.leastVersion_isLeast hlist).1
      obtain ⟨part', hpart', hmax⟩ := (SourcePartsSetForPatch.greatestVersion_isGreatest hlist).1
      rw [if_neg hnil, hmin, hmax]
      exact ⟨(h.versions.extremes part hpart).1.1.2, (h.versions.extremes part' hpart').2.1.2⟩
  rw [hleast.1, hleast.2]

theorem foldlM_addSourcePart : ∀ {rest : List String} {names : List String} {s : SourcePartsSetForPatch}, BuiltFrom s names v →
    (∀ name ∈ names ++ rest, name ∈ updates.touched v) → (names ++ rest).Nodup →
      ∃ s', rest.foldlM (fun partsSet name => partsSet.addSourcePart name v) s = .ok s' ∧ BuiltFrom s' (names ++ rest) v := by
  intro rest
  induction rest with
  | nil =>
    intro names s h _ _
    exact ⟨s, rfl, by rwa [List.append_nil]⟩
  | cons name rest ih =>
    intro names s h htouched hnodup
    have hnew : name ∉ names := fun hmem => (List.nodup_append.1 hnodup).2.2 name hmem name List.mem_cons_self rfl
    obtain ⟨s₁, hadd, h₁⟩ := h.addSourcePart (fun n hn => htouched n (List.mem_append_left _ hn))
      (htouched name (List.mem_append_right _ List.mem_cons_self)) hnew
    rw [List.append_cons] at htouched hnodup ⊢
    obtain ⟨s₂, hrest, h₂⟩ := ih h₁ htouched hnodup
    refine ⟨s₂, ?_, h₂⟩
    rw [List.foldlM_cons, hadd]
    exact hrest

end BuiltFrom

theorem exists_build {names : List String} (hnodup : names.Nodup) (htouched : ∀ name ∈ names, name ≠ "" → name ∈ updates.touched v) :
    ∃ s, SourcePartsSetForPatch.build names v = .ok s ∧ KeepsRecords updates s {r | (r.1 ∈ names ∧ r.1 ≠ "") ∧ r.2 = v} := by
  have htouched' : ∀ name ∈ names.filter (· ≠ ""), name ∈ updates.touched v := fun name hname => by
    obtain ⟨hmem, hne⟩ := List.mem_filter.1 hname
    exact htouched name hmem (of_decide_eq_true hne)
  obtain ⟨s, hs, h⟩ := BuiltFrom.foldlM_addSourcePart (BuiltFrom.nil (v := v)) htouched' (hnodup.filter _)
  refine ⟨s, hs, ?_⟩
  have hkeeps := h.keepsRecords htouched'
  rw [List.nil_append] at hkeeps
  convert hkeeps using 3
  simp [List.mem_filter]

theorem exists_merge {parts : List (SourcePartsSetForPatch × Set (String × ℕ))} (hparts : ∀ p ∈ parts, KeepsRecords updates p.1 p.2) :
    ∃ s, SourcePartsSetForPatch.merge (parts.map Prod.fst) = .ok s ∧ KeepsRecords updates s {r | ∃ p ∈ parts, r ∈ p.2} := by
  have hversions := Versions.empty.mergeSets fun p hp => (hparts p hp).versions
  rw [Set.empty_union] at hversions
  refine KeepsRecords.of_versions hversions ?_
  rintro r ⟨p, hp, hr⟩
  exact (hparts p hp).touched r hr

theorem Recorded.keepsRecords {records : Set (String × ℕ)} (h : Recorded updates s records) : KeepsRecords updates s records := by
  induction h with
  | build hnodup htouched h =>
    obtain ⟨s', hs', hkeeps⟩ := exists_build hnodup htouched
    rwa [Except.ok.inj (hs'.symm.trans h)] at hkeeps
  | merge _ h ih =>
    obtain ⟨s', hs', hkeeps⟩ := exists_merge ih
    rwa [Except.ok.inj (hs'.symm.trans h)] at hkeeps

/-- **What was recorded determines the set**, whatever the grouping and the order of the merges. -/
theorem Recorded.unique {s' : SourcePartsSetForPatch} {records : Set (String × ℕ)} (h : Recorded updates s records)
    (h' : Recorded updates s' records) : s = s' := h.keepsRecords.unique h'.keepsRecords

/-! ## Which parts a patch applies through -/

namespace ActiveDataPartSet

variable {T : ActiveDataPartSet} {p : PartInfo} {e : Entry}

omit [IntText] in
theorem nodup_getPartsCoveredByImpl (T : ActiveDataPartSet) (p : PartInfo) : (T.getPartsCoveredByImpl p).Nodup := by
  have hall : (T.toTheLeft p).reverse ++ T.toTheRight p = T.partInfoToName.toList := by
    unfold toTheLeft toTheRight
    rw [List.reverse_reverse]
    exact T.partInfoToName.below_append_above _
  have hnodup : ((T.toTheLeft p).reverse ++ T.toTheRight p).Nodup := by
    rw [hall]
    exact T.partInfoToName.sorted.imp fun hlt heq => hlt.ne (congrArg entryKey heq)
  unfold getPartsCoveredByImpl
  simp only
  split_ifs
  · exact List.nodup_nil
  · exact List.nodup_nil
  · exact hnodup.sublist ((List.takeWhile_prefix _).sublist.reverse.append (List.takeWhile_prefix _).sublist)

omit [IntText] in
/-- The parts inside `p`, if `p` crosses none: any other part that meets `p` covers it, and then nothing is inside. -/
theorem mem_getPartsCoveredByImpl_iff (hT : T.Laid) (hp : p.Proper) (hcross : ∀ f ∈ T, ¬ p.MeetsWithoutNesting f.1) :
    e ∈ T.getPartsCoveredByImpl p ↔ e ∈ T ∧ p.Contains e.1 := by
  refine ⟨mem_of_mem_getPartsCoveredByImpl, fun ⟨he, hc⟩ => mem_getPartsCoveredByImpl hT hp (fun f hf => ?_) he hc⟩
  by_cases hd : p.IsDisjoint f.1
  · exact Or.inl hd
  by_cases hfc : p.Contains f.1
  · exact Or.inr hfc
  have hcover : f.1.Contains p := by
    by_contra hn
    exact hcross f hf ⟨hd, hfc, hn⟩
  have heq : f = e := hT.eq_of_meet hf he ((hcover.trans hc).not_isDisjoint (hT.proper e he).blocks)
  exact Or.inr (heq ▸ hc)

end ActiveDataPartSet

namespace SourcePartsSetForPatch

omit [IntText] in
theorem mem_foldl_insertName {l names : List String} : name ∈ l.foldl insertName names ↔ name ∈ names ∨ name ∈ l := by
  induction l generalizing names with
  | nil => simp
  | cons a l ih =>
    rw [List.foldl_cons, ih]
    unfold insertName
    by_cases h : a ∈ names
    · rw [if_pos h, List.mem_cons]
      refine ⟨by tauto, ?_⟩
      rintro (hn | rfl | hn)
      · exact Or.inl hn
      · exact Or.inl h
      · exact Or.inr hn
    · rw [if_neg h, List.mem_append, List.mem_singleton, List.mem_cons, or_assoc]

omit [IntText] in
theorem nodup_foldl_insertName {l names : List String} (h : names.Nodup) : (l.foldl insertName names).Nodup := by
  induction l generalizing names with
  | nil => exact h
  | cons a l ih =>
    rw [List.foldl_cons]
    refine ih ?_
    unfold insertName
    split_ifs with ha
    · exact h
    · exact List.nodup_append.2 ⟨h, List.nodup_singleton a, fun b hb c hc heq => ha (by rwa [← List.mem_singleton.1 hc, ← heq])⟩

/-- The loop of `getPatchParts`: a set with the part itself asks for a merge, the names of the others are collected. -/
theorem collectNames_spec (original : PartInfo) : ∀ (sets : List (ℕ × ActiveDataPartSet)) (found : Bool × List String),
    ((collectNames original sets found).1 = true ↔
      found.1 = true ∨ ∃ set ∈ sets, set.2.getPartsCoveredBy original = [original.getPartNameV1]) ∧
    (found.2.Nodup → (collectNames original sets found).2.Nodup) ∧
    ∀ name, name ∈ (collectNames original sets found).2 ↔ name ∈ found.2 ∨
      ∃ set ∈ sets, set.2.getPartsCoveredBy original ≠ [original.getPartNameV1] ∧ name ∈ set.2.getPartsCoveredBy original := by
  intro sets
  induction sets with
  | nil =>
    intro found
    simp [collectNames]
  | cons set sets ih =>
    intro found
    obtain ⟨hasMerge, names⟩ := found
    unfold collectNames
    by_cases h : set.2.getPartsCoveredBy original = [original.getPartNameV1]
    · simp only [if_pos h]
      obtain ⟨hmerge, hnodup, hnames⟩ := ih (true, names)
      refine ⟨?_, hnodup, fun name => ?_⟩
      · rw [hmerge]
        simp [h]
      · rw [hnames name]
        simp [h]
    · simp only [if_neg h]
      obtain ⟨hmerge, hnodup, hnames⟩ := ih (hasMerge, (set.2.getPartsCoveredBy original).foldl insertName names)
      refine ⟨?_, fun hn => hnodup (nodup_foldl_insertName hn), fun name => ?_⟩
      · rw [hmerge]
        simp [h]
      · rw [hnames name]
        simp only [mem_foldl_insertName, List.mem_cons, exists_eq_or_imp, ne_eq, h, not_false_eq_true, true_and]
        tauto

end SourcePartsSetForPatch

/-- The names that the patch parts apply through, with their modes. -/
def appliedNames {P : Type} (patchParts : List (PatchPartInfo P)) : List (String × PatchMode) :=
  patchParts.flatMap fun patch => patch.sourceParts.map fun name => (name, patch.mode)

/-- **What the patch parts of a part have to be**: the recorded parts inside it that were touched after its data version, each
once, the part itself by a merge and the others by a join. -/
structure AppliesThrough {P : Type} (records : Set (String × ℕ)) (original : PartInfo) (patchPart : P)
    (patchParts : List (PatchPartInfo P)) : Prop where
  patch : ∀ patch ∈ patchParts, patch.part = patchPart ∧ patch.sourceDataVersion = original.getDataVersion
  once : ((appliedNames patchParts).map Prod.fst).Nodup
  names : ∀ name mode, (name, mode) ∈ appliedNames patchParts ↔
    (∃ v, IsGreatest {w | (name, w) ∈ records} v ∧ dataVersionOf original < v) ∧
      (∃ info, fromPartName name minFormatVersionWithCustomPartitioning = .ok info ∧ original.Contains info) ∧
      mode = if name = original.getPartNameV1 then .merge else .join

section GetPatchParts

variable {records : Set (String × ℕ)} {original : PartInfo}

theorem KeepsRecords.mem_getPartsCoveredBy (h : KeepsRecords updates s records) (hproper : original.Proper)
    (hcross : ∀ r ∈ records, ∀ info, fromPartName r.1 minFormatVersionWithCustomPartitioning = .ok info →
      ¬ original.MeetsWithoutNesting info) {T : ActiveDataPartSet} (hT : (v, T) ∈ s.sourcePartsByVersion) :
    (T.getPartsCoveredBy original).Nodup ∧ ∀ name, name ∈ T.getPartsCoveredBy original ↔
      IsGreatest {w | (name, w) ∈ records} v ∧
        ∃ info, fromPartName name minFormatVersionWithCustomPartitioning = .ok info ∧ original.Contains info := by
  obtain ⟨-, -, hmem⟩ := h.filed.mem v T hT
  have hlaid : T.Laid := by
    refine ⟨fun e he => fromPartName_proper ((hmem e).1 he).2, fun e he f hf hef => ?_⟩
    obtain ⟨he, hep⟩ := (hmem e).1 he
    obtain ⟨hf, hfp⟩ := (hmem f).1 hf
    refine updates.disjoint v e.2 (h.touched _ he.1) f.2 (h.touched _ hf.1) (fun heq => hef ?_) e.1 f.1 hep hfp
    rw [heq, hfp] at hep
    exact Prod.ext (Except.ok.inj hep).symm heq
  have hiff : ∀ e, e ∈ T.getPartsCoveredByImpl original ↔ e ∈ T ∧ original.Contains e.1 := fun e =>
    ActiveDataPartSet.mem_getPartsCoveredByImpl_iff hlaid hproper fun f hf =>
      hcross (f.2, v) ((hmem f).1 hf).1.1 f.1 ((hmem f).1 hf).2
  refine ⟨?_, fun name => ?_⟩
  · refine List.Nodup.map_on (fun e he f hf heq => ?_) (ActiveDataPartSet.nodup_getPartsCoveredByImpl T original)
    have hep := ((hmem e).1 ((hiff e).1 he).1).2
    have hfp := ((hmem f).1 ((hiff f).1 hf).1).2
    rw [heq, hfp] at hep
    exact Prod.ext (Except.ok.inj hep).symm heq
  · unfold ActiveDataPartSet.getPartsCoveredBy
    rw [List.mem_map]
    constructor
    · rintro ⟨e, he, rfl⟩
      obtain ⟨heT, hc⟩ := (hiff e).1 he
      exact ⟨((hmem e).1 heT).1, e.1, ((hmem e).1 heT).2, hc⟩
    · rintro ⟨hgreatest, info, hparse, hc⟩
      exact ⟨(info, name), (hiff _).2 ⟨(hmem _).2 ⟨hgreatest, hparse⟩, hc⟩, rfl⟩

variable [LawfulIntText]

theorem getPartsCoveredBy_eq_singleton {T : ActiveDataPartSet} (hname : original.Nameable)
    (hnodup : (T.getPartsCoveredBy original).Nodup)
    (hiff : ∀ name, name ∈ T.getPartsCoveredBy original ↔ IsGreatest {w | (name, w) ∈ records} v ∧
      ∃ info, fromPartName name minFormatVersionWithCustomPartitioning = .ok info ∧ original.Contains info)
    (htouched : ∀ r ∈ records, r.1 ∈ updates.touched r.2) :
    T.getPartsCoveredBy original = [original.getPartNameV1] ↔ original.getPartNameV1 ∈ T.getPartsCoveredBy original := by
  refine ⟨fun h => by rw [h]; exact List.mem_cons_self, fun hmem => ?_⟩
  have hself := fromPartName_getPartNameV1 le_rfl hname
  have hall : ∀ name ∈ T.getPartsCoveredBy original, name = original.getPartNameV1 := by
    intro name hmem'
    obtain ⟨hgreatest, info, hparse, hc⟩ := (hiff name).1 hmem'
    obtain ⟨hgreatest', -⟩ := (hiff _).1 hmem
    by_contra hne
    exact hc.not_isDisjoint (fromPartName_proper hparse).blocks
      (updates.disjoint v _ (htouched _ hgreatest'.1) _ (htouched _ hgreatest.1) (Ne.symm hne) original info hself hparse)
  have hperm : (T.getPartsCoveredBy original).Perm [original.getPartNameV1] := by
    rw [List.perm_ext_iff_of_nodup hnodup (List.nodup_singleton _)]
    exact fun name => ⟨fun hn => List.mem_singleton.2 (hall name hn), fun hn => List.mem_singleton.1 hn ▸ hmem⟩
  exact List.perm_singleton.1 hperm

/-- **The patch applies through the recorded parts inside the part**, if the part crosses none of them. -/
theorem KeepsRecords.getPatchParts_spec {P : Type} (h : KeepsRecords updates s records) (hname : original.Nameable)
    (hcross : ∀ r ∈ records, ∀ info, fromPartName r.1 minFormatVersionWithCustomPartitioning = .ok info →
      ¬ original.MeetsWithoutNesting info) (patchPart : P) :
    AppliesThrough records original patchPart (s.getPatchParts original patchPart) := by
  set sets := s.sourcePartsByVersion.above (dataVersionOf original + 1) with hsets
  set found := SourcePartsSetForPatch.collectNames original sets (false, []) with hfound
  obtain ⟨hmerge, hnodup, hjoin⟩ := SourcePartsSetForPatch.collectNames_spec original sets (false, [])
  rw [← hfound] at hmerge hnodup hjoin
  -- which sets are looked at, and what is inside the part there
  have hcovered : ∀ set ∈ sets, (set.2.getPartsCoveredBy original).Nodup ∧ ∀ name, name ∈ set.2.getPartsCoveredBy original ↔
      IsGreatest {w | (name, w) ∈ records} set.1 ∧
        ∃ info, fromPartName name minFormatVersionWithCustomPartitioning = .ok info ∧ original.Contains info := fun set hset =>
    h.mem_getPartsCoveredBy hname.proper hcross (KeyedSet.mem_above.1 hset).1
  have hsingle : ∀ set ∈ sets, set.2.getPartsCoveredBy original = [original.getPartNameV1] ↔
      original.getPartNameV1 ∈ set.2.getPartsCoveredBy original := fun set hset =>
    getPartsCoveredBy_eq_singleton hname (hcovered set hset).1 (hcovered set hset).2 h.touched
  have happlies : ∀ name, (∃ set ∈ sets, name ∈ set.2.getPartsCoveredBy original) ↔
      (∃ v, IsGreatest {w | (name, w) ∈ records} v ∧ dataVersionOf original < v) ∧
        ∃ info, fromPartName name minFormatVersionWithCustomPartitioning = .ok info ∧ original.Contains info := by
    intro name
    constructor
    · rintro ⟨set, hset, hin⟩
      obtain ⟨hgreatest, hinside⟩ := ((hcovered set hset).2 name).1 hin
      exact ⟨⟨set.1, hgreatest, (KeyedSet.mem_above.1 hset).2⟩, hinside⟩
    · rintro ⟨⟨v, hgreatest, hlt⟩, hinside⟩
      obtain ⟨T, hT⟩ := h.filed.exists_set (name, v) hgreatest
      have hset : (v, T) ∈ sets := KeyedSet.mem_above.2 ⟨hT, hlt⟩
      exact ⟨(v, T), hset, ((hcovered _ hset).2 name).2 ⟨hgreatest, hinside⟩⟩
  have hmergeIff : found.1 = true ↔ ∃ set ∈ sets, original.getPartNameV1 ∈ set.2.getPartsCoveredBy original := by
    rw [hmerge]
    simp only [Bool.false_eq_true, false_or]
    exact exists_congr fun set => and_congr_right fun hset => hsingle set hset
  have hjoinIff : ∀ name, name ∈ found.2 ↔ name ≠ original.getPartNameV1 ∧ ∃ set ∈ sets, name ∈ set.2.getPartsCoveredBy original := by
    intro name
    rw [hjoin name]
    simp only [List.not_mem_nil, false_or]
    constructor
    · rintro ⟨set, hset, hne, hin⟩
      exact ⟨fun heq => hne ((hsingle set hset).2 (heq ▸ hin)), set, hset, hin⟩
    · rintro ⟨hne, set, hset, hin⟩
      refine ⟨set, hset, fun heq => hne ?_, hin⟩
      rw [heq] at hin
      exact List.mem_singleton.1 hin
  have hresult : s.getPatchParts original patchPart =
      (if found.1 then [⟨.merge, patchPart, [original.getPartNameV1], original.getDataVersion⟩] else []) ++
        if found.2.isEmpty then [] else [⟨.join, patchPart, found.2, original.getDataVersion⟩] := by
    unfold SourcePartsSetForPatch.getPatchParts
    simp only [← hsets, ← hfound]
    by_cases hempty : sets.isEmpty = true
    · rw [List.isEmpty_iff] at hempty
      rw [hfound, hempty]
      rfl
    · rw [if_neg hempty]
  have hnames : appliedNames (s.getPatchParts original patchPart) =
      (if found.1 then [(original.getPartNameV1, .merge)] else []) ++ found.2.map fun name => (name, .join) := by
    rw [hresult]
    unfold appliedNames
    rw [List.flatMap_append]
    congr 1
    · split_ifs <;> rfl
    · split_ifs with hempty
      · rw [List.isEmpty_iff.1 hempty]
        rfl
      · exact List.flatMap_singleton _ _
  refine ⟨?_, ?_, ?_⟩
  · rw [hresult]
    intro patch hpatch
    rcases List.mem_append.1 hpatch with hpatch | hpatch
    · split_ifs at hpatch
      · rw [List.mem_singleton.1 hpatch]
        exact ⟨rfl, rfl⟩
      · cases hpatch
    · split_ifs at hpatch
      · cases hpatch
      · rw [List.mem_singleton.1 hpatch]
        exact ⟨rfl, rfl⟩
  · rw [hnames, List.map_append, List.map_map]
    have hid : (Prod.fst ∘ fun name : String => (name, PatchMode.join)) = id := rfl
    rw [hid, List.map_id]
    split_ifs
    · refine List.nodup_cons.2 ⟨fun hmem => ?_, hnodup List.nodup_nil⟩
      exact ((hjoinIff _).1 hmem).1 rfl
    · exact hnodup List.nodup_nil
  · intro name mode
    rw [hnames, List.mem_append, List.mem_map, ← and_assoc, ← happlies name]
    by_cases hself : name = original.getPartNameV1
    · subst hself
      simp only [if_true, Prod.mk.injEq]
      constructor
      · rintro (hm | ⟨other, hother, rfl, -⟩)
        · split_ifs at hm with hf
          · exact ⟨hmergeIff.1 hf, (Prod.mk.inj (List.mem_singleton.1 hm)).2⟩
          · cases hm
        · exact absurd rfl ((hjoinIff _).1 hother).1
      · rintro ⟨hin, rfl⟩
        rw [if_pos (hmergeIff.2 hin)]
        exact Or.inl List.mem_cons_self
    · simp only [hself, if_false, Prod.mk.injEq]
      constructor
      · rintro (hm | ⟨other, hother, rfl, rfl⟩)
        · split_ifs at hm
          · exact absurd (Prod.mk.inj (List.mem_singleton.1 hm)).1 hself
          · cases hm
        · exact ⟨((hjoinIff _).1 hother).2, rfl⟩
      · rintro ⟨hin, rfl⟩
        exact Or.inr ⟨name, (hjoinIff name).2 ⟨hself, hin⟩, rfl, rfl⟩

end GetPatchParts

/-! ## The file -/

section File

variable {io : BinaryIO} {records : Set (String × ℕ)}

/-- What the loop of `writeBinary` writes for a part. -/
def writePart (io : BinaryIO) (part : String × ℕ × ℕ) : List UInt8 :=
  io.stringBinary.write part.1 ++ (io.littleEndian.write part.2.1 ++ io.littleEndian.write part.2.2)

omit [IntText] in
theorem reads_readPart {part : String × ℕ × ℕ} {parts : MinMaxVersionsByPart}
    (hpart : io.ReadsString part.1 ∧ part.2.1 < 2 ^ 64 ∧ part.2.2 < 2 ^ 64) :
    Reads (SourcePartsSetForPatch.readPart io parts) (writePart io part) ((parts.erase part.1).emplace part) := by
  obtain ⟨hname, hmin, hmax⟩ := hpart
  exact (io.stringBinary.reads _ hname).bind ((io.littleEndian.reads _ hmin).bind (io.littleEndian.reads _ hmax).bind_pure)

omit [IntText] in
/-- The loop of `readBinary`: the parts are assigned to their names one after another. -/
theorem reads_readParts : ∀ {l : List (String × ℕ × ℕ)} {parts : MinMaxVersionsByPart},
    (∀ part ∈ l, io.ReadsString part.1 ∧ part.2.1 < 2 ^ 64 ∧ part.2.2 < 2 ^ 64) →
      Reads ((List.range l.length).foldlM (fun parts _ => SourcePartsSetForPatch.readPart io parts) parts) (l.flatMap (writePart io))
        (l.foldl (fun parts part => (parts.erase part.1).emplace part) parts) := by
  intro l
  induction l with
  | nil =>
    intro parts _
    exact Reads.pure parts
  | cons part l ih =>
    intro parts hl
    have hfirst := @reads_readPart io part parts (hl part List.mem_cons_self)
    have hrest := @ih ((parts.erase part.1).emplace part) fun other hother => hl other (List.mem_cons_of_mem _ hother)
    rw [List.length_cons, List.range_succ_eq_map, List.foldlM_cons, List.flatMap_cons, List.foldl_cons]
    refine hfirst.bind ?_
    rw [List.foldlM_map]
    exact hrest

/-- **Reading what was written rebuilds the set**, with its sets of parts. -/
theorem KeepsRecords.reads_readBinary (h : KeepsRecords updates s records) (hnames : ∀ r ∈ records, io.ReadsString r.1)
    (hcount : s.minMaxVersionsByPart.toList.length < 2 ^ 64) :
    Reads (SourcePartsSetForPatch.readBinary {} io) (s.writeBinary io) s := by
  have hwritten : ∀ part ∈ s.minMaxVersionsByPart.toList, io.ReadsString part.1 ∧ part.2.1 < 2 ^ 64 ∧ part.2.2 < 2 ^ 64 := by
    intro part hpart
    obtain ⟨hleast, hgreatest⟩ := h.versions.extremes part hpart
    exact ⟨hnames _ hleast.1, updates.version_lt _ ⟨_, h.touched _ hleast.1⟩, updates.version_lt _ ⟨_, h.touched _ hgreatest.1⟩⟩
  have hparts : s.minMaxVersionsByPart.toList.foldl (fun parts part => (parts.erase part.1).emplace part) KeyedSet.empty =
      s.minMaxVersionsByPart := by
    refine KeyedSet.ext_of_mem fun part => ?_
    rw [@KeyedSet.mem_foldl_emplace_erase _ _ _ Prod.fst _ _ (s.minMaxVersionsByPart.sorted.imp fun hlt => hlt.ne)]
    exact ⟨fun hp => hp.resolve_right fun hp => absurd hp.1 (KeyedSet.notMem_empty _), Or.inl⟩
  have hloop := @reads_readParts io _ .empty hwritten
  rw [hparts] at hloop
  have hbuilt : SourcePartsSetForPatch.buildSourcePartsSet { minMaxVersionsByPart := s.minMaxVersionsByPart } = .ok s := h.rebuilt
  refine (io.uint8.reads 0 (by decide)).bind
    ((Reads.check rfl).nil_bind ((io.littleEndian.reads _ hcount).bind (hloop.bind_nil ?_)))
  dsimp only
  rw [hbuilt]
  exact Reads.pure s

end File

/-! ## Source parts of a patch -/

/-- **The source parts of a patch**, for a set that was built from updates and merged in any way: what was recorded determines
it, the data versions are the extremes, a part that crosses no recorded part gets the patch through the recorded parts inside
it, and the file brings the set back. -/
theorem sourcePartsSet_spec [LawfulIntText] (io : BinaryIO) (updates : SourcePartUpdates) (s : SourcePartsSetForPatch)
    (records : Set (String × ℕ)) (h : Recorded updates s records) :
    (∀ (original : PartInfo) {P : Type} (patchPart : P), original.Nameable →
      (∀ r ∈ records, ∀ info, fromPartName r.1 minFormatVersionWithCustomPartitioning = .ok info →
        ¬ original.MeetsWithoutNesting info) →
      AppliesThrough records original patchPart (s.getPatchParts original patchPart)) ∧
    (∀ s', Recorded updates s' records → s' = s) ∧
    (∀ parts : List (SourcePartsSetForPatch × Set (String × ℕ)), (∀ p ∈ parts, Recorded updates p.1 p.2) →
      ∃ t, SourcePartsSetForPatch.merge (parts.map Prod.fst) = .ok t ∧ Recorded updates t {r | ∃ p ∈ parts, r ∈ p.2}) ∧
    (records.Nonempty →
      IsLeast {v | ∃ name, (name, v) ∈ records} s.minDataVersion ∧ IsGreatest {v | ∃ name, (name, v) ∈ records} s.maxDataVersion) ∧
    ((∀ r ∈ records, io.ReadsString r.1) → s.minMaxVersionsByPart.toList.length < 2 ^ 64 →
      Reads (SourcePartsSetForPatch.readBinary {} io) (s.writeBinary io) s) := by
  refine ⟨fun original P patchPart hname hcross => h.keepsRecords.getPatchParts_spec hname hcross patchPart, fun s' h' => h'.unique h, ?_,
    h.keepsRecords.dataVersions, h.keepsRecords.reads_readBinary⟩
  intro parts hparts
  obtain ⟨t, ht, -⟩ := exists_merge fun p hp => (hparts p hp).keepsRecords
  exact ⟨t, ht, .merge hparts ht⟩

end MergeTree

namespace MergeTree

section Decimal

attribute [local instance] IntText.decimal LawfulIntText.decimal

/-- One update with data version 5 that touches two parts. -/
def twoParts {nameA nameB : String} {a b : PartInfo} (ha : fromPartName nameA minFormatVersionWithCustomPartitioning = .ok a)
    (hb : fromPartName nameB minFormatVersionWithCustomPartitioning = .ok b) (hd : a.IsDisjoint b) : SourcePartUpdates where
  touched v := {name | v = 5 ∧ (name = nameA ∨ name = nameB)}
  version_lt v hv := by
    obtain ⟨name, rfl, -⟩ := hv
    decide
  parsed v name hname := by
    obtain ⟨-, rfl | rfl⟩ := hname
    · exact ⟨a, ha⟩
    · exact ⟨b, hb⟩
  disjoint v x hx y hy hne p q hp hq := by
    obtain ⟨-, rfl | rfl⟩ := hx <;> obtain ⟨-, rfl | rfl⟩ := hy
    · exact absurd rfl hne
    · rw [ha] at hp
      rw [hb] at hq
      obtain rfl := Except.ok.inj hp
      obtain rfl := Except.ok.inj hq
      exact hd
    · rw [hb] at hp
      rw [ha] at hq
      obtain rfl := Except.ok.inj hp
      obtain rfl := Except.ok.inj hq
      exact hd.symm
    · exact absurd rfl hne

/-- A part that was merged from two updated parts gets the patch through both. -/
theorem sourcePartsSet_spec_merged :
    let original := PartInfo.make "all" 1 2 1 0
    ∃ s, SourcePartsSetForPatch.build ["", "all_1_1_0", "all_2_2_0"] 5 = .ok s ∧
      AppliesThrough {r | (r.1 ∈ ["", "all_1_1_0", "all_2_2_0"] ∧ r.1 ≠ "") ∧ r.2 = 5} original () (s.getPatchParts original ()) ∧
      ("all_1_1_0", PatchMode.join) ∈ appliedNames (s.getPatchParts original ()) := by
  intro original
  have ha : fromPartName "all_1_1_0" minFormatVersionWithCustomPartitioning = .ok (.make "all" 1 1 0 0) := by decide +kernel
  have hb : fromPartName "all_2_2_0" minFormatVersionWithCustomPartitioning = .ok (.make "all" 2 2 0 0) := by decide +kernel
  let updates := twoParts ha hb (by decide)
  have htouched : ∀ name ∈ ["", "all_1_1_0", "all_2_2_0"], name ≠ "" → name ∈ updates.touched 5 := by
    intro name hname hne
    simp only [List.mem_cons, hne, List.not_mem_nil, or_false, false_or] at hname
    exact ⟨rfl, hname⟩
  obtain ⟨s, hs, -⟩ := @exists_build _ updates _ _ (by decide) htouched
  have hname : original.Nameable := by
    refine ⟨by decide, by decide, by decide, by decide, by decide, by decide, by decide, by decide⟩
  have hspec := sourcePartsSet_spec .plain updates s _ (.build (by decide) htouched hs)
  have hpatch := hspec.1 original () hname (by
    rintro r ⟨⟨hmem, hne⟩, -⟩ info hinfo
    simp only [List.mem_cons, hne, List.not_mem_nil, or_false, false_or] at hmem
    rcases hmem with h | h
    · simp only [h] at hinfo
      rw [← Except.ok.inj (ha.symm.trans hinfo)]
      decide
    · simp only [h] at hinfo
      rw [← Except.ok.inj (hb.symm.trans hinfo)]
      decide)
  refine ⟨s, hs, hpatch, (hpatch.names _ _).2 ⟨⟨5, ?_, by decide⟩, ⟨_, ha, by decide⟩, by decide +kernel⟩⟩
  exact ⟨by simp, fun w hw => hw.2.le⟩

/-- The walk over the recorded parts stops at a part that the original part crosses, before one that it contains. -/
theorem not_getPatchParts_crossing :
    let a := PartInfo.make "all" 1 1 5 0
    let b := PartInfo.make "all" 2 2 0 0
    let original := PartInfo.make "all" 0 10 1 0
    ∃ updates s, Recorded updates s {r | (r.1 ∈ ["", "all_1_1_5", "all_2_2_0"] ∧ r.1 ≠ "") ∧ r.2 = 5} ∧ original.Nameable ∧
      original.MeetsWithoutNesting a ∧ original.Contains b ∧ s.getPatchParts original () = [] ∧
      ¬ AppliesThrough {r | (r.1 ∈ ["", "all_1_1_5", "all_2_2_0"] ∧ r.1 ≠ "") ∧ r.2 = 5} original () (s.getPatchParts original ()) := by
  intro a b original
  have ha : fromPartName "all_1_1_5" minFormatVersionWithCustomPartitioning = .ok a := by decide +kernel
  have hb : fromPartName "all_2_2_0" minFormatVersionWithCustomPartitioning = .ok b := by decide +kernel
  let updates := twoParts ha hb (by decide)
  have htouched : ∀ name ∈ ["", "all_1_1_5", "all_2_2_0"], name ≠ "" → name ∈ updates.touched 5 := by
    intro name hname hne
    simp only [List.mem_cons, hne, List.not_mem_nil, or_false, false_or] at hname
    exact ⟨rfl, hname⟩
  obtain ⟨s, hs, -⟩ := @exists_build _ updates _ _ (by decide) htouched
  have hcomputed : (SourcePartsSetForPatch.build ["", "all_1_1_5", "all_2_2_0"] 5).map (fun s => s.getPatchParts original ()) = .ok [] := by
    decide +kernel
  rw [hs] at hcomputed
  have hnone : s.getPatchParts original () = [] := Except.ok.inj hcomputed
  refine ⟨updates, s, .build (by decide) htouched hs, ⟨by decide, by decide, by decide, by decide, by decide, by decide, by decide, by decide⟩,
    by decide, by decide, hnone, fun h => ?_⟩
  have hmem := (h.names "all_2_2_0" _).2 ⟨⟨5, ⟨by simp, fun w hw => hw.2.le⟩, by decide⟩, ⟨b, hb, by decide⟩, rfl⟩
  rw [hnone] at hmem
  cases hmem

end Decimal

end MergeTree
