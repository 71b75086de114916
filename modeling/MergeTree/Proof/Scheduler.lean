import MergeTree.Proof.ActiveDataPartSet
import MergeTree.Spec.Scheduler

/-!
# Entries that are executed at the same time

`future_parts` holds the virtual parts of the executing entries and nothing else, and
these entries stay out of each other's way: two parts of different entries are disjoint,
unless the entry that started later drops a range around the part of the other one.

* `currentlyExecuting_exclusive`, `endExecuting_exclusive`: the constructor and the
  destructor of `CurrentlyExecuting` keep `Exclusive`.
* `reachable_exclusive`: every run of them.
-/

namespace MergeTree

namespace Queue

open Prog

/-! ## What is tagged -/

/-- What the scheduler reads: the tagged parts and the ranges that are being dropped. -/
structure Tags where
  formatVersion : ℕ
  futureParts : KeyedSet (Prod.fst : String × LogEntry → String)
  ranges : KeyedSet PartInfo.toTuple

def tags (s : Queue) : Tags where
  formatVersion := s.formatVersion
  futureParts := s.futureParts
  ranges := s.currentlyExecutingDropReplaceRanges

section Exclusion

variable [IntText] {s t : Queue} {c : Tags} {entry : LogEntry} {executing : List LogEntry}

/-- The entry has a virtual part of this name. -/
def HasVirtualPart (v : ℕ) (e : LogEntry) (name : String) : Prop :=
  ∃ names, e.getVirtualPartNames v = .ok names ∧ name ∈ names

/-- The entry drops this range. -/
def HasDropRange (v : ℕ) (e : LogEntry) (p : PartInfo) : Prop :=
  ∃ r, e.getDropRange v = .ok (some r) ∧ fromPartName r v = .ok p

theorem not_hasDropRange {v : ℕ} {e : LogEntry} (hr : e.getDropRange v = .ok none) (p : PartInfo) : ¬ HasDropRange v e p := by
  rintro ⟨r, hr', -⟩
  rw [hr] at hr'
  cases hr'

theorem hasDropRange_iff {v : ℕ} {e : LogEntry} {name : String} {p : PartInfo} (hr : e.getDropRange v = .ok (some name))
    (hp : fromPartName name v = .ok p) (q : PartInfo) : HasDropRange v e q ↔ q = p := by
  constructor
  · rintro ⟨r, hr', hq⟩
    rw [hr] at hr'
    cases hr'
    rw [hp] at hq
    cases hq
    rfl
  · rintro rfl
    exact ⟨name, hr, hp⟩

/-- The parts of an entry that starts now and of one that is executing do not meet, except
that a drop range may be around parts. -/
def Apart (p q : PartInfo) : Prop := p.IsDisjoint q ∨ (p.isFakeDropRangePart ∧ p.Contains q)

/-- The virtual parts of two entries, of which `later` started last. -/
def PartsApart (v : ℕ) (later earlier : LogEntry) : Prop :=
  ∀ n m, HasVirtualPart v later n → HasVirtualPart v earlier m → n ≠ m ∧
    ∃ p q, fromPartName n v = .ok p ∧ fromPartName m v = .ok q ∧ Apart p q

/-- The drop ranges of two entries. -/
def RangesApart (v : ℕ) (e f : LogEntry) : Prop :=
  ∀ p q, HasDropRange v e p → HasDropRange v f q → p.IsDisjoint q

/-- An entry whose constructor of `CurrentlyExecuting` can return: its names parse and are
distinct, and no actual part was set. -/
structure Executable (v : ℕ) (e : LogEntry) : Prop where
  names : ∃ names, e.getVirtualPartNames v = .ok names ∧ names.Nodup
  dropRange : ∃ r, e.getDropRange v = .ok r ∧ ∀ name, r = some name → ∃ p, fromPartName name v = .ok p
  actualNewPartName : e.actualNewPartName = ""
  replaceRangeActualNewPartNames : e.replaceRangeActualNewPartNames = []

/-- **Exclusion**, with the executing entries latest first. -/
structure Exclusive (executing : List LogEntry) (c : Tags) : Prop where
  futureParts : ∀ x, x ∈ c.futureParts ↔ x.2 ∈ executing ∧ HasVirtualPart c.formatVersion x.2 x.1
  ranges : ∀ p, p ∈ c.ranges ↔ ∃ e ∈ executing, HasDropRange c.formatVersion e p
  executable : ∀ e ∈ executing, Executable c.formatVersion e
  partsApart : executing.Pairwise (PartsApart c.formatVersion)
  rangesApart : executing.Pairwise (RangesApart c.formatVersion)

/-! ## The checks -/

omit [IntText] in
theorem isCoveredByFutureParts_none [IntText] {v : ℕ} {p : PartInfo} : ∀ {l : List (String × LogEntry)}
    {w : Option (List LogEntry)}, isCoveredByFutureParts v entry p l none = .ok (false, w) →
      ∀ x ∈ l, ∃ q, fromPartName x.1 v = .ok q ∧ Apart p q := by
  intro l
  induction l with
  | nil =>
    intro w _ x hx
    cases hx
  | cons y l ih =>
    obtain ⟨name, other⟩ := y
    intro w h x hx
    unfold isCoveredByFutureParts at h
    split at h
    · cases h
    · next q hq =>
      have hrest : ∀ x ∈ l, ∃ q, fromPartName x.1 v = .ok q ∧ Apart p q := by
        split at h
        · exact ih h
        · split at h
          · exact ih h
          · cases h
      rcases List.mem_cons.1 hx with rfl | hx
      · refine ⟨q, hq, ?_⟩
        split at h
        · next hd => exact Or.inl hd.symm
        · split at h
          · next hf => exact Or.inr hf
          · cases h
      · exact hrest x hx

theorem futurePartsAllow_true : ∀ {names : List String}, s.futurePartsAllow entry names = .ok true →
    ∀ n ∈ names, (∀ x ∈ s.futureParts, x.1 ≠ n) ∧ ∃ p, fromPartName n s.formatVersion = .ok p ∧
      ∀ x ∈ s.futureParts, ∃ q, fromPartName x.1 s.formatVersion = .ok q ∧ Apart p q := by
  intro names
  induction names with
  | nil =>
    intro _ n hn
    cases hn
  | cons name names ih =>
    intro h n hn
    unfold futurePartsAllow at h
    split at h
    · cases h
    · cases h
    · next w hfree =>
      rcases List.mem_cons.1 hn with rfl | hn
      · unfold isCoveredByFuturePartsImpl at hfree
        split at hfree
        · cases hfree
        · next hfind =>
          rw [Bool.not_eq_true, Option.isSome_eq_false_iff, Option.isNone_iff_eq_none] at hfind
          refine ⟨KeyedSet.find_eq_none.1 hfind, ?_⟩
          split at hfree
          · cases hfree
          · next p hp => exact ⟨p, hp, isCoveredByFutureParts_none hfree⟩
      · exact ih h n hn

theorem dropRangesAllow_true (h : s.dropRangesAllow entry = .ok true) :
    (∃ r, entry.getDropRange s.formatVersion = .ok r ∧
      ∀ name, r = some name → ∃ p, fromPartName name s.formatVersion = .ok p) ∧
    ∀ p, HasDropRange s.formatVersion entry p →
      ∀ q ∈ s.currentlyExecutingDropReplaceRanges, p.IsDisjoint q := by
  unfold dropRangesAllow at h
  split at h
  · cases h
  · next hr =>
    refine ⟨⟨none, hr, fun name hname => by cases hname⟩, ?_⟩
    rintro p ⟨r, hr', -⟩
    rw [hr] at hr'
    cases hr'
  · next r hr =>
    split at h
    · cases h
    · next p hp =>
      refine ⟨⟨some r, hr, fun name hname => ⟨p, by cases hname; exact hp⟩⟩, ?_⟩
      rintro q ⟨r', hr', hq⟩ x hx
      rw [hr] at hr'
      cases hr'
      rw [hp] at hq
      cases hq
      simp only [Except.ok.injEq, List.all_eq_true, decide_eq_true_eq] at h
      exact h x hx

/-- **What an entry that may execute keeps apart from.** -/
theorem mayExecute_true (h : s.mayExecute entry = .ok true) : ∃ names,
    entry.getVirtualPartNames s.formatVersion = .ok names ∧
    (∀ n ∈ names, (∀ x ∈ s.futureParts, x.1 ≠ n) ∧ ∃ p, fromPartName n s.formatVersion = .ok p ∧
      ∀ x ∈ s.futureParts, ∃ q, fromPartName x.1 s.formatVersion = .ok q ∧ Apart p q) ∧
    s.dropRangesAllow entry = .ok true := by
  unfold mayExecute at h
  split at h
  · cases h
  · next names hnames =>
    split at h
    · cases h
    · cases h
    · next hallow => exact ⟨names, hnames, futurePartsAllow_true hallow, h⟩

/-! ## The constructor -/

omit [IntText] in
theorem markEntry_wp (f : LogEntry → LogEntry) :
    (markEntry entry f).wp (fun _ t => t.tags = s.tags) (fun _ _ => False) s := rfl

theorem registerDropRange_wp (hfree : ∀ p, HasDropRange s.formatVersion entry p →
      ∀ q ∈ s.currentlyExecutingDropReplaceRanges, p.IsDisjoint q)
    (hparse : ∃ r, entry.getDropRange s.formatVersion = .ok r ∧
      ∀ name, r = some name → ∃ p, fromPartName name s.formatVersion = .ok p) :
    (registerDropRange entry).wp (fun inserted t => inserted = true ∧ t.formatVersion = s.formatVersion ∧
      t.futureParts = s.futureParts ∧ ∀ p, p ∈ t.currentlyExecutingDropReplaceRanges ↔
        p ∈ s.currentlyExecutingDropReplaceRanges ∨ HasDropRange s.formatVersion entry p)
      (fun _ _ => False) s := by
  obtain ⟨dropRange, hr, hname⟩ := hparse
  unfold registerDropRange orThrow
  rw [wp_bind, wp_get, wp_bind, hr]
  cases dropRange with
  | none =>
    exact ⟨rfl, rfl, rfl, fun p => by simp [not_hasDropRange hr p]⟩
  | some name =>
    obtain ⟨p, hp⟩ := hname name rfl
    have hrange := hasDropRange_iff hr hp
    -- a range that is disjoint from `p` does not have its key
    have hnew : ∀ q ∈ s.currentlyExecutingDropReplaceRanges, q.toTuple ≠ p.toTuple := by
      intro q hq heq
      have hdis := hfree p ((hrange p).2 rfl) q hq
      have hcon : q.Contains p := PartInfo.Eqv.contains (p := q) (q := p) heq
      exact hcon.not_isDisjoint (fromPartName_proper hp).blocks hdis.symm
    have hfind := KeyedSet.find_eq_none.2 hnew
    simp only [Except.mapError, Prog.lift, wp_pure, parse, orThrow, wp_bind, wp_get, hp, wp_modify]
    refine ⟨?_, trivial, trivial, ?_⟩
    · rw [hfind]
      rfl
    · intro q
      rw [KeyedSet.mem_emplace, hrange q]
      constructor
      · rintro (hq | ⟨rfl, -⟩)
        · exact Or.inl hq
        · exact Or.inr rfl
      · rintro (hq | rfl)
        · exact Or.inl hq
        · exact Or.inr ⟨rfl, hnew⟩

/-- While the names `rest` are still to be tagged. -/
structure Tagging (s : Queue) (entry : LogEntry) (names rest : List String) (t : Queue) : Prop where
  formatVersion : t.formatVersion = s.formatVersion
  ranges : t.currentlyExecutingDropReplaceRanges = s.currentlyExecutingDropReplaceRanges
  split : ∃ done, names = done ++ rest ∧ done.Nodup ∧
    ∀ x, x ∈ t.futureParts ↔ x ∈ s.futureParts ∨ (x.2 = entry ∧ x.1 ∈ done)

omit [IntText] in
theorem tagFuturePart_wp {names rest : List String} {name : String}
    (hfree : ∀ n ∈ names, ∀ x ∈ s.futureParts, x.1 ≠ n) (h : Tagging s entry names (name :: rest) t) :
    (tagFuturePart entry name).wp (fun _ u => Tagging s entry names rest u)
      (fun _ _ => ¬ names.Nodup) t := by
  obtain ⟨done, hnames, hnd, hmem⟩ := h.split
  unfold tagFuturePart
  rw [wp_bind, wp_get]
  refine wp_ite (fun hfind => ?_) fun hfind => ?_
  · -- the name was tagged before, so it is there twice
    obtain ⟨x, hx⟩ := Option.isSome_iff_exists.1 hfind
    obtain ⟨hx, hname⟩ := KeyedSet.find_eq_some.1 hx
    intro hdup
    rcases (hmem x).1 hx with hx | ⟨-, hx⟩
    · exact hfree name (by rw [hnames]; simp) x hx hname
    · rw [hnames] at hdup
      rw [hname] at hx
      exact (List.nodup_append.1 hdup).2.2 name hx name List.mem_cons_self rfl
  · rw [Bool.not_eq_true, Option.isSome_eq_false_iff, Option.isNone_iff_eq_none] at hfind
    have hnew := KeyedSet.find_eq_none.1 hfind
    have hself : ∀ x : String × LogEntry, x.2 = entry ∧ x.1 ∈ done → x ∈ t.futureParts :=
      fun x hx => (hmem x).2 (Or.inr hx)
    have hnot : name ∉ done := fun hin => hnew (name, entry) (hself _ ⟨rfl, hin⟩) rfl
    refine ⟨h.formatVersion, h.ranges, done ++ [name], by simp [hnames], ?_, ?_⟩
    · rw [List.nodup_append]
      refine ⟨hnd, List.nodup_singleton name, ?_⟩
      intro n hn m hm hnm
      rw [List.mem_singleton.1 hm] at hnm
      exact hnot (hnm ▸ hn)
    · intro x
      simp only [KeyedSet.mem_emplace, hmem x, List.mem_append, List.mem_singleton]
      constructor
      · rintro ((hx | ⟨hx, hin⟩) | ⟨rfl, -⟩)
        · exact Or.inl hx
        · exact Or.inr ⟨hx, Or.inl hin⟩
        · exact Or.inr ⟨rfl, Or.inr rfl⟩
      · rintro (hx | ⟨hx, hin | hin⟩)
        · exact Or.inl (Or.inl hx)
        · exact Or.inl (Or.inr ⟨hx, hin⟩)
        · exact Or.inr ⟨Prod.ext hin hx, hnew⟩

/-- **Starting an entry.** When the checks let an entry through and its virtual part names
are distinct, the constructor does not throw, its assertion holds, and exclusion is
kept. -/
theorem currentlyExecuting_exclusive (h : Exclusive executing s.tags) (hmay : s.mayExecute entry = .ok true)
    (hactual : entry.actualNewPartName = "" ∧ entry.replaceRangeActualNewPartNames = []) :
    (currentlyExecuting entry).wp (fun inserted t => inserted = true ∧ t.formatVersion = s.formatVersion ∧
        Exclusive (entry :: executing) t.tags)
      (fun _ _ => ∀ names, entry.getVirtualPartNames s.formatVersion = .ok names → ¬ names.Nodup) s := by
  obtain ⟨names, hnames, hparts, hdrop⟩ := mayExecute_true hmay
  obtain ⟨hrange, hranges⟩ := dropRangesAllow_true hdrop
  have hvirtual : ∀ n, HasVirtualPart s.formatVersion entry n ↔ n ∈ names := by
    intro n
    constructor
    · rintro ⟨names', hnames', hn⟩
      rw [hnames] at hnames'
      cases hnames'
      exact hn
    · intro hn
      exact ⟨names, hnames, hn⟩
  unfold currentlyExecuting
  rw [wp_bind]
  refine wp_mono (registerDropRange_wp hranges hrange) ?_ fun _ _ hf => hf.elim
  rintro inserted t ⟨hins, hv, hfp, hrs⟩
  rw [wp_bind]
  refine wp_mono (markEntry_wp _) ?_ fun _ _ hf => hf.elim
  intro _ u hu
  have huv : u.formatVersion = s.formatVersion := (congrArg Tags.formatVersion hu).trans hv
  have hufp : u.futureParts = s.futureParts := (congrArg Tags.futureParts hu).trans hfp
  have hurs : u.currentlyExecutingDropReplaceRanges = t.currentlyExecutingDropReplaceRanges :=
    congrArg Tags.ranges hu
  unfold orThrow
  rw [wp_bind, wp_get, wp_bind, huv, hnames]
  have hfree : ∀ n ∈ names, ∀ x ∈ u.futureParts, x.1 ≠ n := by
    intro n hn
    rw [hufp]
    exact (hparts n hn).1
  have hstart : Tagging u entry names names u :=
    ⟨rfl, rfl, [], rfl, List.nodup_nil, fun x => by simp⟩
  have hloop := wp_forM (f := tagFuturePart entry) (E := fun _ _ => ¬ names.Nodup)
    (fun rest w => Tagging u entry names rest w) names (fun _ _ _ hw => tagFuturePart_wp hfree hw) hstart
  change (names.forM (tagFuturePart entry) >>= fun _ => pure inserted).wp _ _ u
  rw [wp_bind]
  refine wp_mono hloop ?_ ?_
  · intro _ w hw
    obtain ⟨done, hdone, hnd, hmem⟩ := hw.split
    rw [List.append_nil] at hdone
    subst hdone
    have hwv : w.formatVersion = s.formatVersion := hw.formatVersion.trans huv
    have hwfp : ∀ x, x ∈ w.futureParts ↔ x ∈ s.futureParts ∨ (x.2 = entry ∧ x.1 ∈ names) := by
      intro x
      rw [hmem x, hufp]
    have hwrs : ∀ p, p ∈ w.currentlyExecutingDropReplaceRanges ↔
        p ∈ s.currentlyExecutingDropReplaceRanges ∨ HasDropRange s.formatVersion entry p := by
      intro p
      rw [hw.ranges, hurs, hrs p]
    rw [wp_pure]
    refine ⟨hins, hwv, ?_, ?_, ?_, ?_, ?_⟩
    · intro x
      change x ∈ w.futureParts ↔ x.2 ∈ entry :: executing ∧ HasVirtualPart w.formatVersion x.2 x.1
      rw [hwfp x, hwv, List.mem_cons]
      have hx := h.futureParts x
      constructor
      · rintro (hin | ⟨rfl, hin⟩)
        · exact ⟨Or.inr (hx.1 hin).1, (hx.1 hin).2⟩
        · exact ⟨Or.inl rfl, (hvirtual _).2 hin⟩
      · rintro ⟨rfl | hin, hp⟩
        · exact Or.inr ⟨rfl, (hvirtual _).1 hp⟩
        · exact Or.inl (hx.2 ⟨hin, hp⟩)
    · intro p
      change p ∈ w.currentlyExecutingDropReplaceRanges ↔
        ∃ e ∈ entry :: executing, HasDropRange w.formatVersion e p
      rw [hwrs p, hwv, List.exists_mem_cons_iff]
      have hp := h.ranges p
      exact (or_congr hp Iff.rfl).trans or_comm
    · intro e he
      change Executable w.formatVersion e
      rw [hwv]
      rcases List.mem_cons.1 he with rfl | he
      · exact ⟨⟨names, hnames, hnd⟩, hrange, hactual.1, hactual.2⟩
      · exact h.executable e he
    · change (entry :: executing).Pairwise (PartsApart w.formatVersion)
      rw [hwv]
      refine List.pairwise_cons.2 ⟨?_, h.partsApart⟩
      intro e he n m hn hm
      have hx : (m, e) ∈ s.futureParts := (h.futureParts (m, e)).2 ⟨he, hm⟩
      obtain ⟨hne, p, hp, hall⟩ := hparts n ((hvirtual n).1 hn)
      obtain ⟨q, hq, hpq⟩ := hall (m, e) hx
      exact ⟨fun heq => hne (m, e) hx heq.symm, p, q, hp, hq, hpq⟩
    · change (entry :: executing).Pairwise (RangesApart w.formatVersion)
      rw [hwv]
      refine List.pairwise_cons.2 ⟨?_, h.rangesApart⟩
      intro e he p q hp hq
      exact hranges p hp q ((h.ranges q).2 ⟨e, he, hq⟩)
  · intro _ w hdup names' hnames'
    cases hnames'
    exact hdup

/-! ## The destructor -/

theorem unregisterDropRange_wp (hthere : ∀ p, HasDropRange s.formatVersion entry p →
      p ∈ s.currentlyExecutingDropReplaceRanges)
    (hparse : ∃ r, entry.getDropRange s.formatVersion = .ok r ∧
      ∀ name, r = some name → ∃ p, fromPartName name s.formatVersion = .ok p) :
    (unregisterDropRange entry).wp (fun removed t => removed = true ∧ t.formatVersion = s.formatVersion ∧
      t.futureParts = s.futureParts ∧ ∀ p, p ∈ t.currentlyExecutingDropReplaceRanges ↔
        p ∈ s.currentlyExecutingDropReplaceRanges ∧ ¬ HasDropRange s.formatVersion entry p)
      (fun _ _ => False) s := by
  obtain ⟨dropRange, hr, hname⟩ := hparse
  unfold unregisterDropRange orThrow
  rw [wp_bind, wp_get, wp_bind, hr]
  cases dropRange with
  | none =>
    exact ⟨rfl, rfl, rfl, fun p => by simp [not_hasDropRange hr p]⟩
  | some name =>
    obtain ⟨p, hp⟩ := hname name rfl
    have hin := hthere p ⟨name, hr, hp⟩
    have hfind : s.currentlyExecutingDropReplaceRanges.find p.toTuple = some p :=
      KeyedSet.find_eq_some.2 ⟨hin, rfl⟩
    simp only [Except.mapError, Prog.lift, wp_pure, parse, orThrow, wp_bind, wp_get, hp, wp_modify]
    refine ⟨?_, trivial, trivial, ?_⟩
    · rw [hfind]
      rfl
    · intro q
      rw [KeyedSet.mem_erase]
      refine and_congr_right fun hq => not_congr ?_
      rw [hasDropRange_iff hr hp]
      exact ⟨KeyedSet.eq_of_key_eq hq hin, fun heq => by rw [heq]⟩

omit [IntText] in
theorem eraseAll_wp : ∀ {names : List String} {s : Queue}, names.Nodup →
    (∀ n ∈ names, ∃ x ∈ s.futureParts, x.1 = n) →
    (names.mapM eraseAndCheck).wp (fun erased t => erased.all id = true ∧ t.formatVersion = s.formatVersion ∧
      t.currentlyExecutingDropReplaceRanges = s.currentlyExecutingDropReplaceRanges ∧
      ∀ x, x ∈ t.futureParts ↔ x ∈ s.futureParts ∧ x.1 ∉ names) (fun _ _ => False) s := by
  intro names
  induction names with
  | nil =>
    intro s _ _
    rw [List.mapM_nil, wp_pure]
    exact ⟨rfl, rfl, rfl, fun x => by simp⟩
  | cons name names ih =>
    intro s hnd hthere
    obtain ⟨hnot, hnd⟩ := List.nodup_cons.1 hnd
    obtain ⟨x, hx, hname⟩ := hthere name List.mem_cons_self
    have hfind : s.futureParts.find name = some x := KeyedSet.find_eq_some.2 ⟨hx, hname⟩
    rw [List.mapM_cons, wp_bind]
    unfold eraseAndCheck
    rw [wp_bind, wp_get, wp_bind, wp_modify, wp_pure, wp_bind, hfind]
    have hrest := ih (s := { s with futureParts := s.futureParts.erase name }) hnd fun n hn => by
      obtain ⟨y, hy, hyn⟩ := hthere n (List.mem_cons_of_mem _ hn)
      refine ⟨y, KeyedSet.mem_erase.2 ⟨hy, ?_⟩, hyn⟩
      intro heq
      rw [hyn] at heq
      exact hnot (heq ▸ hn)
    refine wp_mono hrest ?_ fun _ _ hf => hf
    rintro erased t ⟨hall, hv, hrs, hmem⟩
    rw [wp_pure]
    refine ⟨by simpa using hall, hv, hrs, ?_⟩
    intro y
    rw [hmem y, KeyedSet.mem_erase, List.mem_cons, not_or]
    tauto

/-- **Ending an entry.** The destructor finds everything that the constructor registered,
and exclusion is kept. -/
theorem endExecuting_exclusive {earlier later : List LogEntry}
    (h : Exclusive (later ++ entry :: earlier) s.tags) :
    (endExecuting entry).wp (fun asserted t => asserted = true ∧ t.formatVersion = s.formatVersion ∧
      Exclusive (later ++ earlier) t.tags) (fun _ _ => False) s := by
  have he : entry ∈ later ++ entry :: earlier := by simp
  have hsub : ∀ e, e ∈ later ++ earlier → e ∈ later ++ entry :: earlier := by
    intro e hin
    simp only [List.mem_append, List.mem_cons] at hin ⊢
    tauto
  have hsublist : (later ++ earlier).Sublist (later ++ entry :: earlier) :=
    (List.Sublist.refl later).append (List.sublist_cons_self entry earlier)
  obtain ⟨names, hnames, hnd⟩ := (h.executable entry he).names
  have hvirtual : ∀ n, HasVirtualPart s.formatVersion entry n ↔ n ∈ names := by
    intro n
    constructor
    · rintro ⟨names', hnames', hn⟩
      rw [show s.formatVersion = s.tags.formatVersion from rfl, hnames] at hnames'
      cases hnames'
      exact hn
    · intro hn
      exact ⟨names, hnames, hn⟩
  -- no other entry has a part or a range of this one
  have hparts : ∀ e ∈ later ++ earlier, ∀ n, HasVirtualPart s.formatVersion e n → n ∉ names := by
    intro e hin n hn hmem
    have hpair := List.pairwise_append.1 h.partsApart
    rcases List.mem_append.1 hin with hin | hin
    · exact (hpair.2.2 e hin entry List.mem_cons_self n n hn ((hvirtual n).2 hmem)).1 rfl
    · exact ((List.pairwise_cons.1 hpair.2.1).1 e hin n n ((hvirtual n).2 hmem) hn).1 rfl
  have hranges : ∀ e ∈ later ++ earlier, ∀ p, HasDropRange s.formatVersion e p →
      ¬ HasDropRange s.formatVersion entry p := by
    intro e hin p hp hpe
    have hpair := List.pairwise_append.1 h.rangesApart
    have hproper : p.minBlock ≤ p.maxBlock := by
      obtain ⟨r, -, hr⟩ := hp
      exact (fromPartName_proper hr).blocks
    rcases List.mem_append.1 hin with hin | hin
    · exact PartInfo.not_isDisjoint_self hproper (hpair.2.2 e hin entry List.mem_cons_self p p hp hpe)
    · exact PartInfo.not_isDisjoint_self hproper ((List.pairwise_cons.1 hpair.2.1).1 e hin p p hpe hp)
  unfold endExecuting
  rw [wp_bind]
  refine wp_mono (unregisterDropRange_wp (s := s) (fun p hp => (h.ranges p).2 ⟨entry, he, hp⟩)
    (h.executable entry he).dropRange) ?_ fun _ _ hf => hf
  rintro removed t ⟨hrem, hv, hfp, hrs⟩
  have hlist : names ++ (if entry.actualNewPartName = "" then [] else [entry.actualNewPartName]) ++
      entry.replaceRangeActualNewPartNames = names := by
    rw [(h.executable entry he).actualNewPartName, (h.executable entry he).replaceRangeActualNewPartNames]
    simp
  have hnamest : entry.getVirtualPartNames t.formatVersion = .ok names := hv ▸ hnames
  unfold orThrow
  rw [wp_bind, wp_get, wp_bind, hnamest]
  change (((names ++ (if entry.actualNewPartName = "" then [] else [entry.actualNewPartName]) ++
    entry.replaceRangeActualNewPartNames).mapM eraseAndCheck) >>= _).wp _ _ t
  rw [hlist, wp_bind]
  have herase := eraseAll_wp (s := t) hnd fun n hn =>
    ⟨(n, entry), by rw [hfp]; exact (h.futureParts (n, entry)).2 ⟨he, (hvirtual n).2 hn⟩, rfl⟩
  refine wp_mono herase ?_ fun _ _ hf => hf
  rintro erased u ⟨hall, huv, hurs, hmem⟩
  rw [wp_bind]
  refine wp_mono (markEntry_wp _) ?_ fun _ _ hf => hf
  intro _ w hw
  have hwv : w.tags.formatVersion = s.formatVersion := (congrArg Tags.formatVersion hw).trans (huv.trans hv)
  rw [wp_pure]
  refine ⟨by rw [hrem, hall]; rfl, hwv, ?_, ?_, ?_, ?_, ?_⟩
  · intro x
    have hx : x ∈ w.tags.futureParts ↔ x ∈ s.futureParts ∧ x.1 ∉ names := by
      rw [congrArg Tags.futureParts hw, ← hfp]
      exact hmem x
    rw [hx, hwv]
    constructor
    · rintro ⟨hin, hnot⟩
      obtain ⟨hex, hp⟩ := (h.futureParts x).1 hin
      refine ⟨?_, hp⟩
      rcases List.mem_append.1 hex with hl | hr
      · exact List.mem_append_left _ hl
      · rcases List.mem_cons.1 hr with heq | hr
        · exact absurd ((hvirtual x.1).1 (heq ▸ hp)) hnot
        · exact List.mem_append_right _ hr
    · rintro ⟨hex, hp⟩
      exact ⟨(h.futureParts x).2 ⟨hsub _ hex, hp⟩, hparts x.2 hex x.1 hp⟩
  · intro p
    have hp : p ∈ w.tags.ranges ↔
        p ∈ s.currentlyExecutingDropReplaceRanges ∧ ¬ HasDropRange s.formatVersion entry p := by
      rw [congrArg Tags.ranges hw]
      change p ∈ u.currentlyExecutingDropReplaceRanges ↔ _
      rw [hurs]
      exact hrs p
    rw [hp, hwv]
    constructor
    · rintro ⟨hin, hnot⟩
      obtain ⟨e, hex, hpe⟩ := (h.ranges p).1 hin
      refine ⟨e, ?_, hpe⟩
      rcases List.mem_append.1 hex with hl | hr
      · exact List.mem_append_left _ hl
      · rcases List.mem_cons.1 hr with heq | hr
        · exact absurd (heq ▸ hpe) hnot
        · exact List.mem_append_right _ hr
    · rintro ⟨e, hex, hpe⟩
      exact ⟨(h.ranges p).2 ⟨e, hsub e hex, hpe⟩, hranges e hex p hpe⟩
  · intro e hex
    rw [hwv]
    exact h.executable e (hsub e hex)
  · rw [hwv]
    exact h.partsApart.sublist hsublist
  · rw [hwv]
    exact h.rangesApart.sublist hsublist

/-! ## Runs -/

/-- The scheduler starts entries and workers end them, in any order; `executing` are the
entries that are executed, latest first. An entry that is not executed has no actual
part names: they are set while it is executed, and the destructor clears them. -/
inductive Schedules (formatVersion : ℕ) : Queue → List LogEntry → Prop
  | start : Schedules formatVersion (create formatVersion) []
  | select {s t : Queue} {executing : List LogEntry} (entry : LogEntry) (inserted : Bool) :
      Schedules formatVersion s executing → s.mayExecute entry = .ok true →
      entry.actualNewPartName = "" ∧ entry.replaceRangeActualNewPartNames = [] →
      (currentlyExecuting entry).exec s = (.ok inserted, t) → Schedules formatVersion t (entry :: executing)
  | finish {s t : Queue} {later earlier : List LogEntry} {asserted : Bool} (entry : LogEntry) :
      Schedules formatVersion s (later ++ entry :: earlier) →
      (endExecuting entry).exec s = (.ok asserted, t) → Schedules formatVersion t (later ++ earlier)
  -- other calls on the queue do not touch what the scheduler reads
  | other {s t : Queue} {executing : List LogEntry} :
      Schedules formatVersion s executing → t.tags = s.tags → Schedules formatVersion t executing

theorem Schedules.exclusive {formatVersion : ℕ} (h : Schedules formatVersion s executing) :
    Exclusive executing s.tags := by
  induction h with
  | start =>
    refine ⟨?_, ?_, ?_, List.Pairwise.nil, List.Pairwise.nil⟩
    · intro x
      constructor
      · intro hx
        exact absurd hx (KeyedSet.notMem_empty x)
      · rintro ⟨hx, -⟩
        cases hx
    · intro p
      constructor
      · intro hp
        exact absurd hp (KeyedSet.notMem_empty p)
      · rintro ⟨e, he, -⟩
        cases he
    · intro e he
      cases he
  | select entry inserted _ hmay hactual hrun ih =>
    exact (wp_ok (Q := fun inserted t => inserted = true ∧ _ ∧ Exclusive _ t.tags)
      (currentlyExecuting_exclusive ih hmay hactual) hrun).2.2
  | finish entry _ hrun ih =>
    exact (wp_ok (Q := fun asserted t => asserted = true ∧ _ ∧ Exclusive _ t.tags)
      (endExecuting_exclusive ih) hrun).2.2
  | other _ ht ih =>
    rw [ht]
    exact ih

/-- **Every reachable schedule.** The tagged parts are the virtual parts of the executing
entries; parts of two of them are disjoint or the entry that started later drops a range
around the part of the other one; the dropped ranges are disjoint. An entry that passes
the checks is started without an exception when its names are distinct, and the
assertions of the constructor and of the destructor hold. -/
theorem reachable_exclusive {formatVersion : ℕ} (h : Schedules formatVersion s executing) :
    (∀ name e, (name, e) ∈ s.futureParts ↔ e ∈ executing ∧ HasVirtualPart s.formatVersion e name) ∧
    executing.Pairwise (fun later earlier => ∀ n m, HasVirtualPart s.formatVersion later n →
      HasVirtualPart s.formatVersion earlier m → ∃ p q, fromPartName n s.formatVersion = .ok p ∧
        fromPartName m s.formatVersion = .ok q ∧
        (p.IsDisjoint q ∨ (p.isFakeDropRangePart ∧ p.Contains q))) ∧
    executing.Pairwise (fun e f => ∀ p q, HasDropRange s.formatVersion e p → HasDropRange s.formatVersion f q →
      p.IsDisjoint q) ∧
    (∀ entry : LogEntry, s.mayExecute entry = .ok true →
      entry.actualNewPartName = "" ∧ entry.replaceRangeActualNewPartNames = [] →
      (∀ inserted t, (currentlyExecuting entry).exec s = (.ok inserted, t) → inserted = true) ∧
      ∀ names, entry.getVirtualPartNames s.formatVersion = .ok names → names.Nodup →
        ∃ t, (currentlyExecuting entry).exec s = (.ok true, t)) ∧
    ∀ later entry earlier, executing = later ++ entry :: earlier →
      ∃ t, (endExecuting entry).exec s = (.ok true, t) := by
  have hexc := h.exclusive
  refine ⟨fun name e => hexc.futureParts (name, e), ?_, hexc.rangesApart, ?_, ?_⟩
  · refine hexc.partsApart.imp ?_
    intro later earlier hap n m hn hm
    exact (hap n m hn hm).2
  · intro entry hmay hactual
    have hwp := currentlyExecuting_exclusive hexc hmay hactual
    refine ⟨fun inserted t hrun => (wp_ok hwp hrun).1, ?_⟩
    intro names hnames hnd
    rcases hrun : (currentlyExecuting entry).exec s with ⟨r, t⟩
    cases r with
    | ok inserted => exact ⟨t, by rw [(wp_ok hwp hrun).1]⟩
    | error e => exact absurd hnd (wp_error hwp hrun names hnames)
  · rintro later entry earlier rfl
    have hwp := endExecuting_exclusive hexc
    rcases hrun : (endExecuting entry).exec s with ⟨r, t⟩
    cases r with
    | ok asserted => exact ⟨t, by rw [(wp_ok hwp hrun).1]⟩
    | error e => exact (wp_error hwp hrun).elim

end Exclusion

section Decimal

attribute [local instance] IntText.decimal

/-- A merge is executed, and a drop of the range around it starts. -/
theorem reachable_exclusive_drop_range :
    let merge : LogEntry := { znodeName := "queue-0000000000", type := .mergeParts, newPartName := "all_1_2_1" }
    let drop : LogEntry := { znodeName := "queue-0000000001", type := .dropRange, newPartName := "all_0_5_999999999" }
    let s := ((currentlyExecuting merge).exec (create 1)).2
    let t := ((currentlyExecuting drop).exec s).2
    t.futureParts.toList.map Prod.fst = ["all_0_5_999999999", "all_1_2_1"] ∧
      ∀ name e, (name, e) ∈ t.futureParts ↔ e ∈ [drop, merge] ∧ HasVirtualPart t.formatVersion e name := by
  intro merge drop s t
  have hs : Schedules 1 s [merge] :=
    .select merge true .start (by decide +kernel) ⟨rfl, rfl⟩ (Prod.ext (by decide +kernel) rfl)
  have ht : Schedules 1 t [drop, merge] :=
    .select drop true hs (by decide +kernel) ⟨rfl, rfl⟩ (Prod.ext (by decide +kernel) rfl)
  exact ⟨by decide +kernel, (reachable_exclusive ht).1⟩

end Decimal

end Queue

end MergeTree
