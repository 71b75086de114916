import MergeTree.Lib.Lists
import MergeTree.Proof.PartInfo
import MergeTree.Spec.MergeRanges

/-!
# Ranges for merges are runs of neighbours

Each split only cuts its input: the first one leaves out a rejected part at every cut
(`SplitRanges`), the second one nothing (`SplitMergeable`). In a duplicate-free list a part has
one successor (`neighbour_unique`), so a rejected part at a cut keeps the ranges on its two
sides apart.
-/

namespace MergeTree

variable {A : Type}

/-! ## Splitting at rejected parts -/

theorem buildNextRange_spec (predicate : A → Except String Unit) : ∀ range parts : List A,
    ∃ taken, (buildNextRange predicate range parts).1 = range ++ taken ∧ (∀ part ∈ taken, predicate part = .ok ()) ∧
      (parts = taken ∧ (buildNextRange predicate range parts).2 = [] ∨
        ∃ rejected, predicate rejected ≠ .ok () ∧ parts = taken ++ rejected :: (buildNextRange predicate range parts).2) := by
  intro range parts
  induction parts generalizing range with
  | nil => exact ⟨[], (List.append_nil range).symm, fun _ h => absurd h List.not_mem_nil, Or.inl ⟨rfl, rfl⟩⟩
  | cons part parts ih =>
    rw [buildNextRange]
    split
    · rename_i text herror
      refine ⟨[], (List.append_nil range).symm, fun _ h => absurd h List.not_mem_nil, Or.inr ⟨part, ?_, rfl⟩⟩
      rw [herror]
      exact fun h => by cases h
    · rename_i hok
      obtain ⟨taken, hrange, htaken, hrest⟩ := ih (range ++ [part])
      refine ⟨part :: taken, by rw [hrange, List.append_assoc]; rfl, ?_, ?_⟩
      · exact List.forall_mem_cons.2 ⟨hok, htaken⟩
      · rcases hrest with ⟨hparts, hnil⟩ | ⟨rejected, hrejected, hparts⟩
        · exact Or.inl ⟨by rw [hparts], hnil⟩
        · refine Or.inr ⟨rejected, hrejected, ?_⟩
          rw [List.cons_append, ← hparts]

/-- **What the first split returns**: cuts of the list, each at a rejected part. -/
structure SplitRanges (predicate : A → Except String Unit) (parts : List A) (ranges : List (List A)) : Prop where
  flatten_eq : ranges.flatten = parts.filter fun part => (predicate part).isOk
  nonempty : ∀ range ∈ ranges, range ≠ []
  isInfix : ∀ range ∈ ranges, range <:+: parts
  cut : ranges.IsChain fun range _ => ∀ last ∈ range.getLast?, ∃ rejected, predicate rejected ≠ .ok () ∧
    [last, rejected] <:+: parts

theorem filter_isOk_of_forall {predicate : A → Except String Unit} {parts : List A} (h : ∀ part ∈ parts, predicate part = .ok ()) :
    parts.filter (fun part => (predicate part).isOk) = parts := by
  rw [List.filter_eq_self]
  intro part hpart
  rw [h part hpart]
  rfl

theorem isOk_eq_false {predicate : A → Except String Unit} {part : A} (h : predicate part ≠ .ok ()) :
    (predicate part).isOk = false := by
  cases hpart : predicate part with
  | error text => rfl
  | ok _ => exact absurd hpart h

theorem splitRangeByPredicate_spec (predicate : A → Except String Unit) (parts : List A) :
    SplitRanges predicate parts (splitRangeByPredicate predicate parts) := by
  fun_induction splitRangeByPredicate predicate parts with
  | case1 => exact ⟨rfl, by simp, by simp, .nil⟩
  | case2 part parts next hnil ih =>
    obtain ⟨taken, htaken, -, hrest⟩ := buildNextRange_spec predicate [] (part :: parts)
    rw [List.nil_append] at htaken
    obtain rfl : taken = [] := htaken.symm.trans hnil
    -- the first part is rejected
    rcases hrest with ⟨hparts, -⟩ | ⟨rejected, hrejected, hparts⟩
    · cases hparts
    have hsuffix : next.2 <:+: part :: parts := by
      rw [hparts]
      exact ⟨[rejected], [], by simp [next]⟩
    refine ⟨?_, ih.nonempty, fun range hrange => (ih.isInfix range hrange).trans hsuffix, ?_⟩
    · rw [ih.flatten_eq, hparts]
      simp [isOk_eq_false hrejected, next]
    · exact ih.cut.imp fun range range' hcut last hlast => by
        obtain ⟨rejected', hrejected', hpair⟩ := hcut last hlast
        exact ⟨rejected', hrejected', hpair.trans hsuffix⟩
  | case3 part parts next hne ih =>
    obtain ⟨taken, htaken, hok, hrest⟩ := buildNextRange_spec predicate [] (part :: parts)
    rw [List.nil_append] at htaken
    have hbegins : next.1 <:+: part :: parts := by
      rcases hrest with ⟨hparts, -⟩ | ⟨rejected, -, hparts⟩
      · rw [hparts]
        exact (show next.1 = taken from htaken) ▸ List.infix_rfl
      · rw [hparts]
        exact ⟨[], rejected :: next.2, by rw [← htaken]; rfl⟩
    have hsuffix : next.2 <:+: part :: parts := by
      rcases hrest with ⟨-, hnil⟩ | ⟨rejected, -, hparts⟩
      · exact (show next.2 = [] from hnil) ▸ List.nil_infix
      · rw [hparts]
        exact ⟨taken ++ [rejected], [], by simp [next]⟩
    refine ⟨?_, List.forall_mem_cons.2 ⟨hne, ih.nonempty⟩,
      List.forall_mem_cons.2 ⟨hbegins, fun range hrange => (ih.isInfix range hrange).trans hsuffix⟩, ?_⟩
    · rw [List.flatten_cons, ih.flatten_eq]
      rcases hrest with ⟨hparts, hnil⟩ | ⟨rejected, hrejected, hparts⟩
      · rw [hparts, filter_isOk_of_forall hok]
        simp [next, htaken, hnil]
      · rw [hparts, List.filter_append, filter_isOk_of_forall hok, List.filter_cons, isOk_eq_false hrejected]
        simp [next, htaken]
    · have hcut := ih.cut.imp (S := fun range _ => ∀ last ∈ range.getLast?, ∃ rejected, predicate rejected ≠ .ok () ∧
          [last, rejected] <:+: part :: parts) fun range range' hcut last hlast => by
        obtain ⟨rejected', hrejected', hpair⟩ := hcut last hlast
        exact ⟨rejected', hrejected', hpair.trans hsuffix⟩
      refine List.isChain_cons.2 ⟨fun range' hrange' last hlast => ?_, hcut⟩
      rcases hrest with ⟨-, hnil⟩ | ⟨rejected, hrejected, hparts⟩
      -- nothing is left for a range that follows
      · rw [show next.2 = [] from hnil] at hrange'
        exact absurd hrange' (by simp [splitRangeByPredicate])
      · refine ⟨rejected, hrejected, ?_⟩
        rw [hparts, ← htaken]
        exact pair_isInfix_append hlast rfl

/-! ## Splitting between parts that cannot be merged -/

variable {canMergeParts : PartProperties → PartProperties → Except String Unit}

/-- Of two parts of the list the later one is disjoint from the earlier one and does not contain it. -/
def NoneContains (parts : List PartProperties) : Prop :=
  parts.Pairwise fun prev current => ¬current.info.Contains prev.info ∧ current.info.IsDisjoint prev.info

theorem buildNextMergeableRange_spec : ∀ (range : List PartProperties) (prev : PartProperties) (parts : List PartProperties),
    NoneContains (prev :: parts) → ∃ taken rest, buildNextMergeableRange canMergeParts range prev parts = .ok (range ++ prev :: taken, rest) ∧
      parts = taken ++ rest ∧ ((prev :: taken).IsChain fun p q => canMergeParts p q = .ok ()) ∧
      ∀ last ∈ (prev :: taken).getLast?, ∀ next ∈ rest.head?, canMergeParts last next ≠ .ok () := by
  intro range prev parts
  induction parts generalizing range prev with
  | nil => exact fun _ => ⟨[], [], rfl, rfl, .singleton _, fun _ _ _ h => by cases h⟩
  | cons current parts ih =>
    intro hapart
    obtain ⟨hprev, hrest⟩ := List.pairwise_cons.1 hapart
    obtain ⟨hcontains, hdisjoint⟩ := hprev current List.mem_cons_self
    rw [buildNextMergeableRange]
    split
    · rename_i text herror
      refine ⟨[], current :: parts, rfl, rfl, .singleton _, fun last hlast next hnext => ?_⟩
      obtain rfl : prev = last := Option.some.inj hlast
      obtain rfl : current = next := Option.some.inj hnext
      rw [herror]
      exact fun h => by cases h
    · rename_i hok
      rw [if_neg hcontains, if_neg (not_not_intro hdisjoint)]
      obtain ⟨taken, rest, hbuild, hparts, hchain, hclosed⟩ := ih (range ++ [prev]) current hrest
      refine ⟨current :: taken, rest, ?_, by rw [hparts]; rfl, List.isChain_cons_cons.2 ⟨hok, hchain⟩, ?_⟩
      · rw [hbuild, List.append_assoc]
        rfl
      · rw [List.getLast?_cons_cons]
        exact hclosed

/-- **What the second split returns** for one range: runs of parts that can be merged, as long as
possible. -/
structure SplitMergeable (canMergeParts : PartProperties → PartProperties → Except String Unit) (parts : List PartProperties)
    (ranges : List (List PartProperties)) : Prop where
  flatten_eq : ranges.flatten = parts
  nonempty : ∀ range ∈ ranges, range ≠ []
  chain : ∀ range ∈ ranges, range.IsChain fun p q => canMergeParts p q = .ok ()
  closed : ranges.IsChain fun range next => ∀ last ∈ range.getLast?, ∀ first ∈ next.head?, canMergeParts last first ≠ .ok ()

theorem splitMergeable_spec : ∀ {count : ℕ} {parts : List PartProperties}, parts.length ≤ count → NoneContains parts →
    ∃ ranges, splitMergeable canMergeParts count parts = .ok ranges ∧ SplitMergeable canMergeParts parts ranges := by
  intro count
  induction count with
  | zero =>
    intro parts hlength _
    obtain rfl : parts = [] := List.length_eq_zero_iff.1 (by omega)
    exact ⟨[], rfl, rfl, by simp, by simp, .nil⟩
  | succ count ih =>
    intro parts hlength hapart
    cases parts with
    | nil => exact ⟨[], rfl, rfl, by simp, by simp, .nil⟩
    | cons part parts =>
      obtain ⟨taken, rest, hbuild, hparts, hchain, hclosed⟩ := buildNextMergeableRange_spec [] part parts hapart
      have hrest : NoneContains rest := hapart.sublist (by rw [hparts]; exact (List.sublist_append_right taken rest).cons part)
      obtain ⟨ranges, hranges, hspec⟩ := @ih rest (by rw [hparts] at hlength; simp at hlength; omega) hrest
      refine ⟨(part :: taken) :: ranges, ?_, ?_, List.forall_mem_cons.2 ⟨by simp, hspec.nonempty⟩,
        List.forall_mem_cons.2 ⟨hchain, hspec.chain⟩, List.isChain_cons.2 ⟨?_, hspec.closed⟩⟩
      · rw [splitMergeable, hbuild]
        change (splitMergeable canMergeParts count rest >>= _) = _
        rw [hranges]
        rfl
      · rw [List.flatten_cons, hspec.flatten_eq, hparts]
        rfl
      · intro next hnext last hlast first hfirst
        refine hclosed last hlast first ?_
        obtain ⟨others, rfl⟩ : ∃ others, ranges = next :: others := by
          cases ranges with
          | nil => cases hnext
          | cons range others => exact ⟨others, by rw [Option.some.inj hnext]⟩
        rw [← hspec.flatten_eq, List.flatten_cons, List.head?_append]
        cases next with
        | nil => cases hfirst
        | cons x next => exact hfirst

theorem mapM_splitMergeable : ∀ {ranges : List (List PartProperties)}, (∀ range ∈ ranges, NoneContains range) →
    ∃ split, ranges.mapM (fun range => splitMergeable canMergeParts range.length range) = .ok split ∧
      List.Forall₂ (SplitMergeable canMergeParts) ranges split := by
  intro ranges
  induction ranges with
  | nil => exact fun _ => ⟨[], rfl, .nil⟩
  | cons range ranges ih =>
    intro hapart
    obtain ⟨first, hfirst, hspec⟩ := @splitMergeable_spec canMergeParts _ _ le_rfl (hapart range List.mem_cons_self)
    obtain ⟨rest, hrest, hall⟩ := ih fun range' hrange' => hapart range' (List.mem_cons_of_mem _ hrange')
    refine ⟨first :: rest, ?_, .cons hspec hall⟩
    rw [List.mapM_cons, hfirst]
    change ((ranges.mapM fun range => splitMergeable canMergeParts range.length range) >>= _) = _
    rw [hrest]
    rfl

section Flatten

variable {B : Type} {lists : List (List B)} {l : List B} {b : B}

theorem mem_getLast?_flatten (hl : l ∈ lists.getLast?) (hb : b ∈ l.getLast?) : b ∈ lists.flatten.getLast? := by
  obtain ⟨before, rfl⟩ := List.getLast?_eq_some_iff.1 hl
  rw [List.flatten_append, List.flatten_singleton, List.getLast?_append, Option.mem_def.1 hb]
  rfl

theorem mem_head?_flatten (hl : l ∈ lists.head?) (hb : b ∈ l.head?) : b ∈ lists.flatten.head? := by
  cases lists with
  | nil => cases hl
  | cons first rest =>
    obtain rfl : first = l := Option.some.inj hl
    rw [List.flatten_cons, List.head?_append, Option.mem_def.1 hb]
    rfl

end Flatten

/-- Two ranges that cannot be joined: their ends are no neighbours of the list, or cannot be merged. -/
def CutApart (canMergeParts : PartProperties → PartProperties → Except String Unit) (parts range next : List PartProperties) : Prop :=
  ∀ last ∈ range.getLast?, ∀ first ∈ next.head?, ¬[last, first] <:+: parts ∨ canMergeParts last first ≠ .ok ()

theorem flatten_splitMergeable {parts : List PartProperties} {ranges : List (List PartProperties)} {split : List (List (List PartProperties))}
    (h : List.Forall₂ (SplitMergeable canMergeParts) ranges split) (hnonempty : ∀ range ∈ ranges, range ≠ [])
    (hcut : ranges.IsChain fun range next => ∀ last ∈ range.getLast?, ∀ first ∈ next.head?, ¬[last, first] <:+: parts) :
    split.flatten.flatten = ranges.flatten ∧
      (∀ piece ∈ split.flatten, piece ≠ [] ∧ (∃ range ∈ ranges, piece <:+: range) ∧
        piece.IsChain fun p q => canMergeParts p q = .ok ()) ∧
      split.flatten.IsChain (CutApart canMergeParts parts) := by
  induction h with
  | nil => exact ⟨rfl, by simp, .nil⟩
  | @cons range pieces ranges split hspec hall ih =>
    obtain ⟨hne, hnonempty⟩ := List.forall_mem_cons.1 hnonempty
    obtain ⟨hfirst, hcut⟩ := List.isChain_cons.1 hcut
    obtain ⟨hflatten, hpieces, hseparate⟩ := ih hnonempty hcut
    refine ⟨by rw [List.flatten_cons, List.flatten_append, hspec.flatten_eq, hflatten, List.flatten_cons], ?_, ?_⟩
    · intro piece hpiece
      rcases List.mem_append.1 hpiece with hpiece | hpiece
      · exact ⟨hspec.nonempty piece hpiece, ⟨range, List.mem_cons_self, hspec.flatten_eq ▸ List.infix_of_mem_flatten hpiece⟩,
          hspec.chain piece hpiece⟩
      · obtain ⟨hne', ⟨range', hrange', hslices⟩, hchain⟩ := hpieces piece hpiece
        exact ⟨hne', ⟨range', List.mem_cons_of_mem _ hrange', hslices⟩, hchain⟩
    · refine List.isChain_append.2 ⟨hspec.closed.imp fun _ _ hclosed last hlast first hfirst => Or.inr (hclosed last hlast first hfirst),
        hseparate, fun piece hpiece next hnext last hlast first hfirst' => Or.inl ?_⟩
      cases hall with
      | nil => cases hnext
      | @cons range' pieces' ranges split hspec' hall =>
        have hne' := hnonempty range' List.mem_cons_self
        have hnext' : next ∈ pieces'.head? := by
          cases pieces' with
          | nil => exact absurd hspec'.flatten_eq.symm hne'
          | cons x pieces' => exact hnext
        have hlast' := mem_getLast?_flatten hpiece hlast
        have hfirst'' := mem_head?_flatten hnext' hfirst'
        rw [hspec.flatten_eq] at hlast'
        rw [hspec'.flatten_eq] at hfirst''
        exact hfirst range' rfl last hlast' first hfirst''

theorem CutApart.not_mergeableRun {parts range next : List PartProperties} (h : CutApart canMergeParts parts range next)
    (hrange : range ≠ []) (hnext : next ≠ []) : ¬MergeableRun canMergeParts parts (range ++ next) := by
  rintro ⟨hslices, hchain⟩
  have hlast : range.getLast hrange ∈ range.getLast? := List.getLast?_eq_some_getLast hrange
  have hfirst : next.head hnext ∈ next.head? := List.head?_eq_some_head hnext
  rcases h _ hlast _ hfirst with hpair | hmerge
  · exact hpair ((pair_isInfix_append hlast hfirst).trans hslices)
  · exact hmerge ((List.isChain_append.1 hchain).2.2 _ hlast _ hfirst)

/-! ## The active parts -/

section Active

variable {properties : A → PartProperties} {partitionsToKeep : Option (String → Bool)} {precondition : A → Except String Unit}
  {active : List A}

theorem ActiveList.sublist {infos infos' : List PartInfo} (h : ActiveList infos) (hsub : infos'.Sublist infos) : ActiveList infos' :=
  ⟨fun info hinfo => h.proper info (hsub.subset hinfo), h.sorted.sublist hsub, h.disjoint.sublist hsub⟩

theorem filterByPartitions_sublist (info : A → PartInfo) (partitionsToKeep : Option (String → Bool)) (parts : List A) :
    (filterByPartitions info partitionsToKeep parts).Sublist parts := by
  unfold filterByPartitions
  split
  · exact List.Sublist.refl parts
  · exact List.filter_sublist

theorem ActiveList.nodup {infos : List PartInfo} (h : ActiveList infos) : infos.Nodup :=
  h.sorted.imp fun hlt heq => absurd (heq ▸ hlt) (lt_irrefl _)

theorem ActiveList.apart {parts : List PartProperties} (h : ActiveList (parts.map PartProperties.info)) : NoneContains parts := by
  refine (List.pairwise_map.1 h.disjoint).imp_of_mem fun {p q} hp _ hpq => ⟨fun hcontains => ?_, hpq.symm⟩
  exact hcontains.not_isDisjoint (h.proper _ (List.mem_map_of_mem hp)).blocks hpq.symm

theorem PartInfo.maxBlock_lt_of_lt {p q : PartInfo} (hp : p.Proper) (hq : q.Proper) (hlt : p.toTuple < q.toTuple)
    (hdisjoint : p.IsDisjoint q) (hpartition : p.partitionId = q.partitionId) : p.maxBlock < q.minBlock := by
  have hblocks := hq.blocks
  have hmin : p.minBlock ≤ q.minBlock := by
    rcases (span_le hlt.le) with hgrp | ⟨-, hlo⟩
    · have hkind := hp.kind_eq hq hpartition
      have heq : p.span.grp = q.span.grp := by
        unfold PartInfo.span
        rw [hkind, hpartition]
      exact absurd hgrp (by rw [heq]; exact lt_irrefl _)
    · exact hlo
  rcases hdisjoint with hne | hbehind | hbefore
  · exact absurd hpartition hne
  · have hblocks' := hp.blocks
    omega
  · exact hbefore

/-- **The merged part of a slice covers no other part**: what is before the slice ends before it, and
what is behind it starts behind it. -/
theorem not_contains_of_slice {parts slice : List PartProperties} (h : ActiveList (parts.map PartProperties.info))
    (hslice : slice <:+: parts) (hpartition : ∀ p ∈ slice, ∀ q ∈ slice, p.info.partitionId = q.info.partitionId)
    {patchVersions : List ℤ} {info : PartInfo} (hinfo : assignPartInfo slice patchVersions = some info) {part : PartProperties}
    (hpart : part ∈ parts) (hout : part ∉ slice) : ¬info.Contains part.info := by
  obtain ⟨before, after, rfl⟩ := hslice
  cases slice with
  | nil => cases hinfo
  | cons first rest =>
    have hfirst : first ∈ first :: rest := List.mem_cons_self
    have hlast := List.getLast_mem (List.cons_ne_nil first rest)
    set last := (first :: rest).getLast (List.cons_ne_nil first rest) with hlast_def
    obtain rfl := Option.some.inj hinfo
    rintro ⟨hid, hmin, hmax, -⟩
    have hid_first : first.info.partitionId = part.info.partitionId := hid
    have hid_last : last.info.partitionId = part.info.partitionId := (hpartition last hlast first hfirst).trans hid_first
    have hproper : ∀ p ∈ before ++ first :: rest ++ after, p.info.Proper := fun p hp => h.proper _ (List.mem_map_of_mem hp)
    have hsorted := List.pairwise_map.1 h.sorted
    have hdisjoint := List.pairwise_map.1 h.disjoint
    have hpart_proper := hproper part hpart
    have hblocks := hpart_proper.blocks
    rcases List.mem_append.1 hpart with hpart' | hafter
    · rcases List.mem_append.1 hpart' with hbefore | hin
      · have hpair := (List.pairwise_append.1 (List.pairwise_append.1 hsorted).1).2.2 part hbefore first hfirst
        have hpair' := (List.pairwise_append.1 (List.pairwise_append.1 hdisjoint).1).2.2 part hbefore first hfirst
        have hlt := PartInfo.maxBlock_lt_of_lt hpart_proper (hproper first (by simp)) hpair hpair' hid_first.symm
        have hmin' : first.info.minBlock ≤ part.info.minBlock := hmin
        omega
      · exact hout hin
    · have hpair := (List.pairwise_append.1 hsorted).2.2 last (List.mem_append_right _ hlast) part hafter
      have hpair' := (List.pairwise_append.1 hdisjoint).2.2 last (List.mem_append_right _ hlast) part hafter
      have hlt := PartInfo.maxBlock_lt_of_lt (hproper last (List.mem_append_left _ (List.mem_append_right _ hlast)))
        hpart_proper hpair hpair' hid_last
      have hmax' : part.info.maxBlock ≤ last.info.maxBlock := hmax
      omega

theorem SplitRanges.cut_map {parts : List A} {ranges : List (List A)} (h : SplitRanges precondition parts ranges)
    (hnodup : (parts.map properties).Nodup) :
    (ranges.map fun range => range.map properties).IsChain fun range next =>
      ∀ last ∈ range.getLast?, ∀ first ∈ next.head?, ¬[last, first] <:+: parts.map properties := by
  refine (List.isChain_map _).2 (h.cut.imp_of_mem_imp fun range next hrange hnext hcut last hlast first hfirst hpair => ?_)
  rw [List.getLast?_map] at hlast
  rw [List.head?_map] at hfirst
  obtain ⟨last', hlast', rfl⟩ := Option.map_eq_some_iff.1 hlast
  obtain ⟨first', hfirst', rfl⟩ := Option.map_eq_some_iff.1 hfirst
  obtain ⟨rejected, hrejected, hneighbour⟩ := hcut last' hlast'
  have hsame := neighbour_unique hnodup hpair (hneighbour.map properties)
  -- the part that follows the range is the rejected one, but the next range begins with an accepted one
  have hfirst_mem : first' ∈ ranges.flatten := List.mem_flatten.2 ⟨next, hnext, List.mem_of_mem_head? hfirst'⟩
  rw [h.flatten_eq, List.mem_filter] at hfirst_mem
  have heq : first' = rejected :=
    List.inj_on_of_nodup_map hnodup hfirst_mem.1 (hneighbour.subset (by simp)) hsame
  rw [heq, isOk_eq_false hrejected] at hfirst_mem
  exact absurd hfirst_mem.2 (by decide)

theorem partitionId_ne_of_not_kept {info : A → PartInfo} {partitionsToKeep : Option (String → Bool)} {parts : List A} {kept other : A}
    (hkept : kept ∈ filterByPartitions info partitionsToKeep parts) (hother : other ∈ parts)
    (hout : other ∉ filterByPartitions info partitionsToKeep parts) : (info kept).partitionId ≠ (info other).partitionId := by
  unfold filterByPartitions at hkept hout
  split at hkept
  · exact absurd hother hout
  · rw [List.mem_filter] at hkept hout
    intro heq
    exact hout ⟨hother, heq ▸ hkept.2⟩

/-- **Merge candidates are runs of consecutive mergeable parts.** No error is thrown, and the merged part of
a slice of a range, which is of one partition, covers no active part outside of the slice. -/
theorem mergeableRanges_runs (properties : A → PartProperties) (partitionsToKeep : Option (String → Bool))
    (precondition : A → Except String Unit) (canMergeParts : PartProperties → PartProperties → Except String Unit)
    (active : List A) (hactive : ActiveList (active.map fun part => (properties part).info)) :
    ∃ ranges, mergeableRanges properties partitionsToKeep precondition canMergeParts active = .ok ranges ∧
      MergeCandidates canMergeParts
        ((filterByPartitions (fun part => (properties part).info) partitionsToKeep active).map properties)
        (((filterByPartitions (fun part => (properties part).info) partitionsToKeep active).filter fun part =>
          (precondition part).isOk).map properties) ranges ∧
      ∀ range ∈ ranges, ∀ slice, slice <:+: range →
        (∀ part ∈ slice, ∀ part' ∈ slice, part.info.partitionId = part'.info.partitionId) →
        ∀ patchVersions info, assignPartInfo slice patchVersions = some info →
          ∀ part ∈ active.map properties, part ∉ slice → ¬info.Contains part.info := by
  set parts := filterByPartitions (fun part => (properties part).info) partitionsToKeep active with hparts
  have hsub : parts.Sublist active := filterByPartitions_sublist _ _ _
  have hinfos : ActiveList ((parts.map properties).map PartProperties.info) := by
    rw [List.map_map]
    exact hactive.sublist (hsub.map _)
  have hnodup : (parts.map properties).Nodup := hinfos.nodup.of_map
  have hsplit := splitRangeByPredicate_spec precondition parts
  have hapart : ∀ range ∈ (splitRangeByPredicate precondition parts).map fun range => range.map properties, NoneContains range := by
    intro range hrange
    obtain ⟨range', hrange', rfl⟩ := List.mem_map.1 hrange
    exact hinfos.apart.sublist ((hsplit.isInfix range' hrange').sublist.map properties)
  obtain ⟨split, hmap, hall⟩ := @mapM_splitMergeable canMergeParts _ hapart
  obtain ⟨hflatten, hpieces, hseparate⟩ := flatten_splitMergeable hall
    (fun range hrange => by
      obtain ⟨range', hrange', rfl⟩ := List.mem_map.1 hrange
      exact fun hnil => hsplit.nonempty range' hrange' (List.map_eq_nil_iff.1 hnil))
    (hsplit.cut_map hnodup)
  have hflatten_eq : split.flatten.flatten = (parts.filter fun part => (precondition part).isOk).map properties := by
    rw [hflatten, ← List.map_flatten, hsplit.flatten_eq]
  have hslices : ∀ piece ∈ split.flatten, piece <:+: parts.map properties := by
    intro piece hpiece
    obtain ⟨-, ⟨range, hrange, hin⟩, -⟩ := hpieces piece hpiece
    obtain ⟨range', hrange', rfl⟩ := List.mem_map.1 hrange
    exact hin.trans ((hsplit.isInfix range' hrange').map properties)
  refine ⟨split.flatten, ?_, ⟨hflatten_eq, ?_, fun range hrange => (hpieces range hrange).1,
    fun range hrange => ⟨hslices range hrange, (hpieces range hrange).2.2⟩, ?_⟩, ?_⟩
  · unfold mergeableRanges splitByMergePredicate
    dsimp only
    rw [← hparts, hmap]
    rfl
  · rw [hflatten_eq]
    exact hnodup.sublist (List.filter_sublist.map properties)
  · exact hseparate.imp_of_mem_imp fun range next hrange hnext h =>
      h.not_mergeableRun (hpieces range hrange).1 (hpieces next hnext).1
  · intro range hrange slice hslice hpartition patchVersions info hinfo part hpart hout
    by_cases hkept : part ∈ parts.map properties
    · exact not_contains_of_slice hinfos (hslice.trans (hslices range hrange)) hpartition hinfo hkept hout
    · rintro ⟨hid, -⟩
      cases slice with
      | nil => cases hinfo
      | cons first rest =>
        obtain rfl := Option.some.inj hinfo
        obtain ⟨first', hfirst', rfl⟩ := List.mem_map.1 ((hslice.trans (hslices range hrange)).subset (List.mem_cons_self))
        obtain ⟨part', hpart', rfl⟩ := List.mem_map.1 hpart
        exact partitionId_ne_of_not_kept hfirst' hpart' (fun h => hkept (List.mem_map_of_mem h)) hid

end Active

/-- Five parts of a partition; the third one is rejected. -/
def fiveParts : List PartProperties :=
  [1, 2, 3, 4, 5].map fun block => ⟨"all", PartInfo.make "all" block block 0 0, [], false⟩

/-- Ranges next to a rejected part. -/
theorem mergeableRanges_runs_fiveParts :
    ∃ ranges, mergeableRanges id none (fun part => if part.info.minBlock = 3 then .error "locked" else .ok ())
        (fun _ _ => .ok ()) fiveParts = .ok ranges ∧ ranges.flatten.length = 4 := by
  obtain ⟨ranges, hranges, hcandidates, -⟩ := mergeableRanges_runs id none
    (fun part => if part.info.minBlock = 3 then .error "locked" else .ok ()) (fun _ _ => .ok ()) fiveParts
    ⟨by decide, by decide +kernel, by decide⟩
  refine ⟨ranges, hranges, ?_⟩
  rw [hcandidates.flatten_eq]
  decide +kernel

end MergeTree
