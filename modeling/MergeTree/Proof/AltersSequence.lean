import MergeTree.Spec.AltersSequence

/-!
# Alters one by one

The calls of a queue that introduces its alters in increasing order, each with its
mutation first (`Allowed`), and that does not finish a mutation twice before the metadata
alter comes (`Orderly`), keep the sequence in step with the history (`Tracks`): a version
is in the sequence exactly while one of its stages is pending.

* `Tracks.apply`: one call keeps the invariant.
* `reaches_sequential`: what a whole run may rely on.
* `finishDataAlter_twice`: without `Orderly` the assertion of `finishDataAlter` fails.
-/

namespace MergeTree

namespace AltersSequence

variable {A : AltersSequence} {v w : ℤ}

/-! ## The map -/

/-- The state of a version. -/
def lookup (A : AltersSequence) (v : ℤ) : Option AlterState := (A.queueState.find v).map Prod.snd

theorem lookup_eq_some {s : AlterState} : A.lookup v = some s ↔ (v, s) ∈ A.queueState := by
  unfold lookup
  rw [Option.map_eq_some_iff]
  constructor
  · rintro ⟨⟨u, t⟩, hfind, rfl⟩
    obtain ⟨hmem, rfl⟩ := KeyedSet.find_eq_some.1 hfind
    exact hmem
  · intro hmem
    exact ⟨(v, s), KeyedSet.find_eq_some.2 ⟨hmem, rfl⟩, rfl⟩

theorem find_isSome : (A.queueState.find v).isSome = (A.lookup v).isSome := by simp [lookup]

theorem find_isNone : (A.queueState.find v).isNone = (A.lookup v).isNone := by simp [lookup]

theorem stateOf_eq : A.stateOf v = (A.lookup v).getD {} := rfl

theorem lookup_setState (s : AlterState) : (A.setState v s).lookup w = if w = v then some s else A.lookup w := by
  have hmem : ∀ t, (w, t) ∈ (A.setState v s).queueState ↔ (w, t) = (v, s) ∨ ((w, t) ∈ A.queueState ∧ w ≠ v) := by
    intro t
    exact KeyedSet.mem_emplace_erase (a := (v, s))
  apply Option.ext
  intro t
  rw [lookup_eq_some, hmem]
  by_cases h : w = v
  · subst h
    simp [eq_comm]
  · simp [h, lookup_eq_some]

theorem lookup_erase :
    lookup { queueState := A.queueState.erase v } w = if w = v then none else A.lookup w := by
  apply Option.ext
  intro t
  rw [lookup_eq_some]
  by_cases h : w = v
  · subst h
    simp
  · simp [h, lookup_eq_some]

theorem lookup_ne_none : A.lookup v ≠ none ↔ ∃ s, (v, s) ∈ A.queueState := by
  rw [Option.ne_none_iff_exists']
  simp only [lookup_eq_some]

theorem head_eq_some : A.head = some v ↔ A.lookup v ≠ none ∧ ∀ w, A.lookup w ≠ none → v ≤ w := by
  unfold head
  rw [Option.map_eq_some_iff, lookup_ne_none]
  constructor
  · rintro ⟨⟨u, s⟩, hfirst, rfl⟩
    obtain ⟨hmem, hle⟩ := KeyedSet.head?_eq_some.1 hfirst
    refine ⟨⟨s, hmem⟩, fun w hw => ?_⟩
    obtain ⟨t, ht⟩ := lookup_ne_none.1 hw
    exact hle _ ht
  · rintro ⟨⟨s, hmem⟩, hle⟩
    refine ⟨(v, s), KeyedSet.head?_eq_some.2 ⟨hmem, ?_⟩, rfl⟩
    rintro ⟨w, t⟩ hw
    exact hle w (lookup_ne_none.2 ⟨t, hw⟩)

theorem head_eq_none : A.head = none ↔ ∀ w, A.lookup w = none := by
  unfold head
  rw [Option.map_eq_none_iff, KeyedSet.head?_eq_none]
  constructor
  · intro h w
    by_contra hw
    obtain ⟨t, ht⟩ := lookup_ne_none.1 hw
    exact h _ ht
  · rintro h ⟨w, t⟩ hw
    exact lookup_ne_none.2 ⟨t, hw⟩ (h w)

/-! ## Runs -/

/-- **The calls of the queue.** Mutations come in increasing order, and before the metadata
alters of their own and of greater versions; metadata alters come in increasing order and
are finished at the head; the data of a version that was introduced may be finished at any
time. -/
def Allowed (A : AltersSequence) (H : AltersHistory) : AlterCall → Prop
  | .addMutationForAlter v => ∀ w, H.Introduced w → w < v
  | .addMetadataAlter v => ∀ w, H.metadata w ≠ .absent → w < v
  | .finishMetadataAlter v => A.canExecuteMetaAlter v = true
  | .finishDataAlter v => H.Introduced v

/-- The data of a version is not finished again before its metadata alter comes, while a
smaller version is pending. -/
def Orderly (H : AltersHistory) : AlterCall → Prop
  | .finishDataAlter v => H.metadata v ≠ .absent ∨ H.data v = .pending ∨ ∀ w, H.Pending w → v < w
  | _ => True

/-- The sequences and histories that runs lead to whose calls satisfy `ok`. -/
inductive Reaches (ok : AltersSequence → AltersHistory → AlterCall → Prop) : AltersSequence → AltersHistory → Prop
  | start : Reaches ok {} {}
  | call {A : AltersSequence} {H : AltersHistory} {c : AlterCall} : Reaches ok A H → ok A H c →
      Reaches ok (A.apply c) (H.apply c)

variable {H : AltersHistory}

/-! ## The invariant -/

/-- The state in the map for the stages of a version. -/
def expected (metadata data : AlterStage) : Option AlterState :=
  if metadata = .pending ∨ data = .pending then some ⟨metadata ≠ .pending, data ≠ .pending⟩ else none

/-- **The sequence is in step with the history.** -/
structure Tracks (A : AltersSequence) (H : AltersHistory) : Prop where
  lookup : ∀ v, A.lookup v = expected (H.metadata v) (H.data v)
  before : ∀ v, H.metadata v = .finished → ∀ w < v, ¬ H.Pending w
  ascending : H.finished.Pairwise (· < ·)
  finished : ∀ v ∈ H.finished, H.metadata v = .finished

theorem Tracks.lookup_ne_none (h : Tracks A H) : A.lookup v ≠ none ↔ H.Pending v := by
  rw [h.lookup]
  unfold expected AltersHistory.Pending
  by_cases hp : H.metadata v = .pending ∨ H.data v = .pending <;> simp [hp]

theorem Tracks.head_eq_some (h : Tracks A H) : A.head = some v ↔ H.Pending v ∧ ∀ w, H.Pending w → v ≤ w := by
  simp only [AltersSequence.head_eq_some, h.lookup_ne_none]

theorem Tracks.head_eq_none (h : Tracks A H) : A.head = none ↔ ∀ w, ¬ H.Pending w := by
  rw [AltersSequence.head_eq_none]
  exact forall_congr' fun w => by rw [← h.lookup_ne_none, not_not]

theorem Tracks.stateOf (h : Tracks A H) (hp : H.Pending v) :
    A.stateOf v = ⟨H.metadata v ≠ .pending, H.data v ≠ .pending⟩ := by
  rw [stateOf_eq, h.lookup]
  unfold expected
  rw [if_pos (show _ ∨ _ from hp)]
  rfl

/-! ### One call -/

theorem lookup_of_update {A' : AltersSequence} {H' : AltersHistory} (h : Tracks A H)
    (hother : ∀ w, w ≠ v → A'.lookup w = A.lookup w ∧ H'.metadata w = H.metadata w ∧ H'.data w = H.data w)
    (hself : A'.lookup v = expected (H'.metadata v) (H'.data v)) :
    ∀ w, A'.lookup w = expected (H'.metadata w) (H'.data w) := by
  intro w
  by_cases hw : w = v
  · rw [hw, hself]
  · obtain ⟨hlookup, hmeta, hdata⟩ := hother w hw
    rw [hlookup, hmeta, hdata, h.lookup]

theorem Tracks.addMutationForAlter (h : Tracks A H) (hc : Allowed A H (.addMutationForAlter v)) :
    Tracks (A.addMutationForAlter v) (H.apply (.addMutationForAlter v)) := by
  have habsent : H.metadata v = .absent ∧ H.data v = .absent := by
    by_contra hnot
    exact lt_irrefl v (hc v (by unfold AltersHistory.Introduced; tauto))
  have hnone : A.lookup v = none := by rw [h.lookup, habsent.1, habsent.2]; rfl
  have hlookup : ∀ w, (A.addMutationForAlter v).lookup w = if w = v then some ⟨true, false⟩ else A.lookup w := by
    intro w
    unfold AltersSequence.addMutationForAlter
    rw [find_isNone, hnone, if_pos (by simp), lookup_setState]
  constructor
  · apply lookup_of_update (v := v) h
    · intro w hw
      simp [hlookup, hw, AltersHistory.apply]
    · simp [hlookup, AltersHistory.apply, expected, habsent]
  · intro u hu w hw
    have hu' : H.metadata u = .finished := hu
    have huv : u < v := hc u (Or.inl (by simp [hu']))
    have hbefore := h.before u hu w hw
    have hne : w ≠ v := by omega
    simpa [AltersHistory.apply, AltersHistory.Pending, hne] using hbefore
  · exact h.ascending
  · exact h.finished

theorem Tracks.addMetadataAlter (h : Tracks A H) (hc : Allowed A H (.addMetadataAlter v)) :
    Tracks (A.addMetadataAlter v) (H.apply (.addMetadataAlter v)) := by
  have habsent : H.metadata v = .absent := by
    by_contra hnot
    exact lt_irrefl v (hc v hnot)
  have hlookup : ∀ w, (A.addMetadataAlter v).lookup w =
      if w = v then some ⟨false, H.data v ≠ .pending⟩ else A.lookup w := by
    intro w
    have hv := h.lookup v
    unfold AltersSequence.addMetadataAlter
    by_cases hd : H.data v = .pending
    · have hsome : A.lookup v = some ⟨true, false⟩ := by simp [hv, expected, habsent, hd]
      rw [find_isNone, stateOf_eq, hsome, if_neg (by simp), lookup_setState]
      simp [hd]
    · have hnone : A.lookup v = none := by simp [hv, expected, habsent, hd]
      rw [find_isNone, hnone, if_pos (by simp), lookup_setState]
      simp [hd]
  constructor
  · apply lookup_of_update (v := v) h
    · intro w hw
      simp [hlookup, hw, AltersHistory.apply]
    · by_cases hd : H.data v = .pending <;> simp [hlookup, AltersHistory.apply, expected, hd]
  · intro u hu w hw
    have hne : u ≠ v := by
      rintro rfl
      simp [AltersHistory.apply] at hu
    have hu' : H.metadata u = .finished := by simpa [AltersHistory.apply, hne] using hu
    have huv : u < v := hc u (by simp [hu'])
    have hbefore := h.before u hu' w hw
    have hwv : w ≠ v := by omega
    simpa [AltersHistory.apply, AltersHistory.Pending, hwv] using hbefore
  · exact h.ascending
  · intro u hu
    have hu' := h.finished u hu
    have hne : u ≠ v := by
      rintro rfl
      rw [habsent] at hu'
      cases hu'
    simpa [AltersHistory.apply, hne] using hu'

theorem pending_of_update {stage : ℤ → AlterStage} (h : Function.update stage v .finished w = .pending) :
    stage w = .pending := by
  by_cases hw : w = v
  · subst hw
    simp at h
  · simpa [hw] using h

theorem Tracks.finishMetadataAlter (h : Tracks A H) (hc : A.canExecuteMetaAlter v = true) :
    Tracks (A.finishMetadataAlter v) (H.apply (.finishMetadataAlter v)) := by
  have hhead : A.head = some v := by simpa [canExecuteMetaAlter] using hc
  obtain ⟨hp, hmin⟩ := h.head_eq_some.1 hhead
  have hlookup : ∀ w, (A.finishMetadataAlter v).lookup w =
      if w = v then (if H.data v = .pending then some ⟨true, false⟩ else none) else A.lookup w := by
    intro w
    unfold AltersSequence.finishMetadataAlter
    rw [h.stateOf hp]
    by_cases hd : H.data v = .pending
    · rw [if_neg (by simp [hd]), lookup_setState]
      simp [hd]
    · rw [if_pos (by simp [hd]), lookup_erase]
      simp [hd]
  by_cases hm : H.metadata v = .pending
  · have happly : H.apply (.finishMetadataAlter v) =
        { H with metadata := Function.update H.metadata v .finished, finished := H.finished ++ [v] } := if_pos hm
    rw [happly]
    constructor
    · apply lookup_of_update (v := v) h
      · intro w hw
        simp [hlookup, hw]
      · by_cases hd : H.data v = .pending <;> simp [hlookup, expected, hd]
    · intro u hu w hw hpw
      have hpw' : H.Pending w := hpw.imp_left pending_of_update
      by_cases huv : u = v
      · have hle := hmin w hpw'
        omega
      · have hu' : H.metadata u = .finished := by simpa [huv] using hu
        exact h.before u hu' w hw hpw'
    · rw [List.pairwise_append]
      refine ⟨h.ascending, List.pairwise_singleton _ _, ?_⟩
      intro u hu t ht
      rw [List.mem_singleton.1 ht]
      -- a version that finished before is not after the head
      have hfinished := h.finished u hu
      by_contra hnot
      rcases lt_or_eq_of_le (not_lt.1 hnot) with hlt | heq
      · exact h.before u hfinished v hlt hp
      · rw [← heq, hm] at hfinished
        cases hfinished
    · intro u hu
      by_cases huv : u = v
      · simp [huv]
      · have hu' : u ∈ H.finished := by simpa [huv] using hu
        simpa [huv] using h.finished u hu'
  · have happly : H.apply (.finishMetadataAlter v) = H := if_neg hm
    have hd : H.data v = .pending := hp.resolve_left hm
    rw [happly]
    refine ⟨lookup_of_update (v := v) h (fun w hw => by simp [hlookup, hw]) ?_, h.before, h.ascending, h.finished⟩
    simp [hlookup, expected, hd, hm]

theorem finished_of_not_pending (hm : H.metadata v ≠ .absent) (hp : ¬ H.Pending v) : H.metadata v = .finished := by
  cases hv : H.metadata v with
  | absent => exact absurd hv hm
  | pending => exact absurd (Or.inl hv) hp
  | finished => rfl

/-- **The assertion of `finishDataAlter`.** A version that is not before the head is pending. -/
theorem Tracks.pending_of_head_le (h : Tracks A H) (ho : Orderly H (.finishDataAlter v))
    {f : ℤ} (hhead : A.head = some f) (hle : f ≤ v) : H.Pending v := by
  obtain ⟨hp, hmin⟩ := h.head_eq_some.1 hhead
  rcases ho with hm | hd | hbefore
  · by_contra hnot
    have hfinished := finished_of_not_pending hm hnot
    rcases lt_or_eq_of_le hle with hlt | heq
    · exact h.before v hfinished f hlt hp
    · exact hnot (heq ▸ hp)
  · exact Or.inr hd
  · exact absurd (hbefore f hp) hle.not_gt

theorem Tracks.finishDataAlter (h : Tracks A H) (ho : Orderly H (.finishDataAlter v)) :
    Tracks (A.finishDataAlter v) (H.apply (.finishDataAlter v)) := by
  cases hhead : A.head with
  | none =>
    have hnone := h.head_eq_none.1 hhead v
    have happly : H.apply (.finishDataAlter v) = H := if_neg fun hd => hnone (Or.inr hd)
    have hsame : A.finishDataAlter v = A := by simp [AltersSequence.finishDataAlter, hhead]
    rw [happly, hsame]
    exact h
  | some f =>
    by_cases hlt : v < f
    · have hmin := (h.head_eq_some.1 hhead).2
      have happly : H.apply (.finishDataAlter v) = H := if_neg fun hd => (hmin v (Or.inr hd)).not_gt hlt
      have hsame : A.finishDataAlter v = A := by simp [AltersSequence.finishDataAlter, hhead, hlt]
      rw [happly, hsame]
      exact h
    · have hp := h.pending_of_head_le ho hhead (not_lt.1 hlt)
      have hlookup : ∀ w, (A.finishDataAlter v).lookup w =
          if w = v then (if H.metadata v = .pending then some ⟨false, true⟩ else none) else A.lookup w := by
        intro w
        unfold AltersSequence.finishDataAlter
        simp only [hhead, if_neg hlt, h.stateOf hp]
        by_cases hm : H.metadata v = .pending
        · rw [if_neg (by simp [hm]), lookup_setState]
          simp [hm]
        · rw [if_pos (by simp [hm]), lookup_erase]
          simp [hm]
      by_cases hd : H.data v = .pending
      · have happly : H.apply (.finishDataAlter v) = { H with data := Function.update H.data v .finished } := if_pos hd
        rw [happly]
        refine ⟨lookup_of_update (v := v) h (fun w hw => by simp [hlookup, hw]) ?_, ?_, h.ascending, h.finished⟩
        · by_cases hm : H.metadata v = .pending <;> simp [hlookup, expected, hm]
        · intro u hu w hw hpw
          exact h.before u hu w hw (hpw.imp_right pending_of_update)
      · have happly : H.apply (.finishDataAlter v) = H := if_neg hd
        rw [happly]
        refine ⟨lookup_of_update (v := v) h (fun w hw => by simp [hlookup, hw]) ?_, h.before, h.ascending, h.finished⟩
        simp [hlookup, expected, hd, hp.resolve_right hd]

/-- **One call keeps the invariant.** -/
theorem Tracks.apply {c : AlterCall} (h : Tracks A H) (hc : Allowed A H c) (ho : Orderly H c) :
    Tracks (A.apply c) (H.apply c) := by
  cases c with
  | addMutationForAlter v => exact h.addMutationForAlter hc
  | addMetadataAlter v => exact h.addMetadataAlter hc
  | finishMetadataAlter v => exact h.finishMetadataAlter hc
  | finishDataAlter v => exact h.finishDataAlter ho

theorem tracks_empty : Tracks {} {} :=
  ⟨fun _ => rfl, fun _ h => (by cases h), List.Pairwise.nil, fun _ h => (by cases h)⟩

theorem Reaches.tracks (h : Reaches (fun A H c => Allowed A H c ∧ Orderly H c) A H) : Tracks A H := by
  induction h with
  | start => exact tracks_empty
  | call _ hok ih => exact ih.apply hok.1 hok.2

/-! ## What a run may rely on -/

theorem Tracks.canExecuteDataAlter (h : Tracks A H) (hm : H.metadata v ≠ .absent) :
    A.canExecuteDataAlter v = .ok (H.metadata v = .finished) := by
  unfold AltersSequence.canExecuteDataAlter
  cases hhead : A.head with
  | none => simp [finished_of_not_pending hm (h.head_eq_none.1 hhead v)]
  | some f =>
    obtain ⟨hpf, hmin⟩ := h.head_eq_some.1 hhead
    by_cases hlt : v < f
    · have hp : ¬ H.Pending v := fun hp => (hmin v hp).not_gt hlt
      simp [hlt, finished_of_not_pending hm hp]
    · have hp : H.Pending v := h.pending_of_head_le (Or.inl hm) hhead (not_lt.1 hlt)
      have hlookup : A.lookup v = some ⟨H.metadata v ≠ .pending, H.data v ≠ .pending⟩ := by
        rw [h.lookup]
        exact if_pos hp
      obtain ⟨entry, hfind, hstate⟩ := Option.map_eq_some_iff.1 hlookup
      have hstages : H.metadata v ≠ .pending ↔ H.metadata v = .finished := by
        cases hv : H.metadata v <;> simp_all
      simp only [if_neg hlt, hfind, hstate, hstages]

/-- **Alters one by one.** In a run of the queue's calls the metadata alters finish in
increasing order; a data alter whose metadata alter was introduced may start, without an
exception, only when its own metadata alter and all smaller alters are over; a version is
in the map exactly while one of its stages is pending; the assertions hold. -/
theorem reaches_sequential (h : Reaches (fun A H c => Allowed A H c ∧ Orderly H c) A H) :
    H.finished.Pairwise (· < ·) ∧
    (∀ v, H.metadata v ≠ .absent → ∃ b, A.canExecuteDataAlter v = .ok b ∧
      (b = true → H.metadata v = .finished ∧ ∀ w < v, ¬ H.Pending w)) ∧
    (∀ v, (A.queueState.find v).isSome ↔ H.Pending v) ∧
    (∀ v, Allowed A H (.finishMetadataAlter v) → A.finishMetadataAlterAsserts v = true) ∧
    (∀ v, Allowed A H (.finishDataAlter v) → Orderly H (.finishDataAlter v) → A.finishDataAlterAsserts v = true) := by
  have ht := h.tracks
  refine ⟨ht.ascending, ?_, ?_, fun v hc => hc, ?_⟩
  · intro v hm
    refine ⟨_, ht.canExecuteDataAlter hm, fun hb => ?_⟩
    have hfinished : H.metadata v = .finished := by simpa using hb
    exact ⟨hfinished, ht.before v hfinished⟩
  · intro v
    rw [find_isSome, ← ht.lookup_ne_none, Option.isSome_iff_ne_none]
  · intro v _ ho
    unfold finishDataAlterAsserts
    cases hhead : A.head with
    | none => rfl
    | some f =>
      by_cases hlt : v < f
      · simp [hlt]
      · have hp := ht.pending_of_head_le ho hhead (not_lt.1 hlt)
        have hsome := Option.isSome_iff_ne_none.2 (ht.lookup_ne_none.2 hp)
        simp [find_isSome, hsome]

/-- The sequence and the history after some calls. -/
def afterCalls (calls : List AlterCall) : AltersSequence × AltersHistory :=
  calls.foldl (fun s c => (s.1.apply c, s.2.apply c)) ({}, {})

theorem Reaches.snoc {ok : AltersSequence → AltersHistory → AlterCall → Prop} {l : List AlterCall} {c : AlterCall}
    (h : Reaches ok (afterCalls l).1 (afterCalls l).2) (hok : ok (afterCalls l).1 (afterCalls l).2 c) :
    Reaches ok (afterCalls (l ++ [c])).1 (afterCalls (l ++ [c])).2 := by
  unfold afterCalls
  rw [List.foldl_append]
  exact h.call hok

/-- Three alters, the second one with a mutation. -/
def threeAlters : List AlterCall :=
  [.addMetadataAlter 1, .addMutationForAlter 2, .addMetadataAlter 2, .addMetadataAlter 3, .finishMetadataAlter 1, .finishMetadataAlter 2]

theorem reaches_three_alters : Reaches (fun A H c => Allowed A H c ∧ Orderly H c) (afterCalls threeAlters).1 (afterCalls threeAlters).2 := by
  have hfirst : ∀ w, ((afterCalls (threeAlters.take 1)).2.metadata w ≠ .absent ∨ (afterCalls (threeAlters.take 1)).2.data w ≠ .absent) → w = 1 := by
    simp [threeAlters, afterCalls, AltersHistory.apply, Function.update_apply]
  have hsecond : ∀ w, (afterCalls (threeAlters.take 3)).2.metadata w ≠ .absent → w = 1 ∨ w = 2 := by
    intro w hw
    by_contra hne
    obtain ⟨hne1, hne2⟩ := not_or.1 hne
    simp [threeAlters, afterCalls, AltersHistory.apply, hne1, hne2] at hw
  have h0 : Reaches (fun A H c => Allowed A H c ∧ Orderly H c) {} {} := .start
  have h1 := h0.call (c := .addMetadataAlter 1) ⟨fun w hw => absurd rfl hw, trivial⟩
  have h2 := h1.call (c := .addMutationForAlter 2) ⟨fun w hw => by have := hfirst w hw; omega, trivial⟩
  have h3 := h2.call (c := .addMetadataAlter 2) ⟨fun w hw => by have := hfirst w (Or.inl hw); omega, trivial⟩
  have h4 := h3.call (c := .addMetadataAlter 3) ⟨fun w hw => by have := hsecond w hw; omega, trivial⟩
  have h5 := h4.call (c := .finishMetadataAlter 1) ⟨(by decide +kernel : (afterCalls (threeAlters.take 4)).1.canExecuteMetaAlter 1 = true), trivial⟩
  exact h5.call (c := .finishMetadataAlter 2) ⟨(by decide +kernel : (afterCalls (threeAlters.take 5)).1.canExecuteMetaAlter 2 = true), trivial⟩

/-- Two metadata alters are finished: the data of the second alter can be altered, that of the third cannot. -/
theorem reaches_sequential_three_alters : ∃ A H, Reaches (fun A H c => Allowed A H c ∧ Orderly H c) A H ∧
    (H.finished = [1, 2] ∧ H.finished.Pairwise (· < ·)) ∧ (A.canExecuteDataAlter 2 = .ok true ∧ ∀ w < 2, ¬H.Pending w) ∧
      A.canExecuteDataAlter 3 = .ok false ∧ A.finishDataAlterAsserts 2 = true := by
  refine ⟨_, _, reaches_three_alters, ?_⟩
  obtain ⟨hascending, hdata, -, -, hasserts⟩ := reaches_sequential reaches_three_alters
  have hready : (afterCalls threeAlters).1.canExecuteDataAlter 2 = .ok true := by decide +kernel
  refine ⟨⟨by decide +kernel, hascending⟩, ⟨hready, ?_⟩, by decide +kernel,
    hasserts 2 (Or.inl (by decide +kernel)) (Or.inl (by decide +kernel))⟩
  obtain ⟨b, hb, hfinished⟩ := hdata 2 (by decide +kernel)
  exact (hfinished (Except.ok.inj (hb.symm.trans hready))).2

/-- **A mutation that finishes twice before its metadata alter comes.** The alter 1 is
pending, the mutation of the alter 2 is added and finished; finishing it again fails the
assertion and leaves a version in the map of which no stage is pending. -/
theorem finishDataAlter_twice :
    Reaches Allowed (afterCalls [.addMetadataAlter 1, .addMutationForAlter 2, .finishDataAlter 2]).1
      (afterCalls [.addMetadataAlter 1, .addMutationForAlter 2, .finishDataAlter 2]).2 ∧
    Allowed (afterCalls [.addMetadataAlter 1, .addMutationForAlter 2, .finishDataAlter 2]).1
      (afterCalls [.addMetadataAlter 1, .addMutationForAlter 2, .finishDataAlter 2]).2 (.finishDataAlter 2) ∧
    (afterCalls [.addMetadataAlter 1, .addMutationForAlter 2, .finishDataAlter 2]).1.finishDataAlterAsserts 2 = false ∧
    ((afterCalls [.addMetadataAlter 1, .addMutationForAlter 2, .finishDataAlter 2,
      .finishDataAlter 2]).1.queueState.find 2).isSome = true ∧
    ¬ (afterCalls [.addMetadataAlter 1, .addMutationForAlter 2, .finishDataAlter 2, .finishDataAlter 2]).2.Pending 2 := by
  refine ⟨?_, Or.inr (by decide +kernel), by decide +kernel, by decide +kernel, by decide +kernel⟩
  apply Reaches.snoc (l := [_, _])
  · apply Reaches.snoc (l := [_])
    · apply Reaches.snoc (l := [])
      · exact .start
      · exact fun w hw => absurd rfl hw
    · intro w hw
      have hw1 : w = 1 := by
        by_contra hne
        simp [AltersHistory.Introduced, AltersHistory.apply, afterCalls, hne] at hw
      omega
  · exact Or.inr (by decide +kernel)

end AltersSequence

end MergeTree
