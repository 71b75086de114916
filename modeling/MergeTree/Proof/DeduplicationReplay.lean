import MergeTree.Spec.DeduplicationLog
import MergeTree.Proof.NumberText

/-!
# Replaying the records of the deduplication log

The map in memory is the replay of all records that were ever written. A reload replays
those that are still on disk, the newest ones.

* `replay_append`: the replay of everything is the replay of the newest records with some
  older entries in front of it.
* `loadRecords_entries`: a log file is loaded as the replay of its records.
-/

namespace MergeTree

/-- **One record**, with the part that it names. -/
structure DeduplicationEntry where
  dropped : Bool
  partInfo : PartInfo
  blockId : String

variable {W : ℕ}

namespace DeduplicationEntry

/-- What an entry does to the map. -/
def apply (m : LimitedOrderedHashMap PartInfo) (e : DeduplicationEntry) : LimitedOrderedHashMap PartInfo :=
  if e.dropped then m.erase e.blockId else m.insert e.blockId e.partInfo

/-- **The map after the entries**, of at most `W` keys. -/
def replay (W : ℕ) (es : List DeduplicationEntry) : LimitedOrderedHashMap PartInfo :=
  es.foldl apply (LimitedOrderedHashMap.empty W)

theorem replay_snoc (es : List DeduplicationEntry) (e : DeduplicationEntry) :
    replay W (es ++ [e]) = apply (replay W es) e := by
  unfold replay
  rw [List.foldl_append]
  rfl

theorem queue_insert {m : LimitedOrderedHashMap PartInfo} {key : String} (h : ¬ m.contains key)
    (value : PartInfo) : (m.insert key value).queue = m.room ++ [(key, value)] := by
  unfold LimitedOrderedHashMap.insert
  rw [dif_neg h]

theorem insert_of_contains {m : LimitedOrderedHashMap PartInfo} {key : String} (h : m.contains key)
    (value : PartInfo) : m.insert key value = m := by
  unfold LimitedOrderedHashMap.insert
  rw [dif_pos h]

theorem maxSize_apply (m : LimitedOrderedHashMap PartInfo) (e : DeduplicationEntry) :
    (apply m e).maxSize = m.maxSize := by
  unfold apply LimitedOrderedHashMap.insert LimitedOrderedHashMap.erase
  split
  · rfl
  · split
    · rfl
    · rfl

theorem length_apply_le {m : LimitedOrderedHashMap PartInfo} (hpos : 0 < m.maxSize)
    (hle : m.queue.length ≤ m.maxSize) (e : DeduplicationEntry) : (apply m e).queue.length ≤ m.maxSize := by
  unfold apply
  split
  · exact (List.length_filter_le _ _).trans hle
  · by_cases h : m.contains e.blockId
    · rw [insert_of_contains h]
      exact hle
    · rw [queue_insert h, List.length_append, List.length_singleton]
      unfold LimitedOrderedHashMap.room
      split
      · rw [List.length_drop]
        omega
      · omega

theorem replay_bounds (hW : 0 < W) (es : List DeduplicationEntry) :
    (replay W es).maxSize = W ∧ (replay W es).queue.length ≤ W := by
  induction es using List.reverseRecOn with
  | nil => exact ⟨rfl, Nat.zero_le W⟩
  | append_singleton es e ih =>
    have hlen := length_apply_le (m := replay W es) (by omega) (by omega) e
    rw [replay_snoc, maxSize_apply]
    exact ⟨ih.1, by omega⟩

theorem mem_replay {es : List DeduplicationEntry} {node : String × PartInfo} (h : node ∈ (replay W es).queue) :
    ∃ e ∈ es, e.dropped = false ∧ e.blockId = node.1 ∧ e.partInfo = node.2 := by
  induction es using List.reverseRecOn with
  | nil => cases h
  | append_singleton es e ih =>
    have hold : node ∈ (replay W es).queue →
        ∃ e' ∈ es ++ [e], e'.dropped = false ∧ e'.blockId = node.1 ∧ e'.partInfo = node.2 := by
      intro hmem
      obtain ⟨e', he', hadd⟩ := ih hmem
      exact ⟨e', List.mem_append_left _ he', hadd⟩
    rw [replay_snoc] at h
    unfold apply at h
    split at h
    · exact hold (List.mem_filter.1 h).1
    · next hadd =>
      by_cases hc : (replay W es).contains e.blockId
      · rw [insert_of_contains hc] at h
        exact hold h
      · rw [queue_insert hc, List.mem_append] at h
        rcases h with h | h
        · exact hold ((LimitedOrderedHashMap.room_sublist _).subset h)
        · obtain rfl := List.mem_singleton.1 h
          exact ⟨e, List.mem_append_right _ (List.mem_singleton_self e), by simpa using hadd, rfl, rfl⟩

/-! ## The newest entries -/

/-- Every entry that adds a key was written when the key was not live. -/
def FreshAdds (W : ℕ) (es : List DeduplicationEntry) : Prop :=
  ∀ before e after, es = before ++ e :: after → e.dropped = false → ¬ (replay W before).contains e.blockId

theorem FreshAdds.nil : FreshAdds W [] := by
  intro before e after h
  simp at h

theorem freshAdds_snoc {es : List DeduplicationEntry} {e : DeduplicationEntry} :
    FreshAdds W (es ++ [e]) ↔
      FreshAdds W es ∧ (e.dropped = false → ¬ (replay W es).contains e.blockId) := by
  constructor
  · intro h
    refine ⟨?_, h es e [] rfl⟩
    intro before x after heq
    exact h before x (after ++ [e]) (by rw [heq]; simp)
  · rintro ⟨hes, he⟩ before x after heq
    rcases List.eq_nil_or_concat after with rfl | ⟨after', y, rfl⟩
    · obtain ⟨rfl, hx⟩ := List.append_inj' heq rfl
      obtain rfl := List.cons.inj hx |>.1
      exact he
    · rw [List.concat_eq_append, ← List.cons_append, ← List.append_assoc] at heq
      exact hes before x after' (List.append_inj' heq rfl).1

/-- **The replay of everything is the replay of the newest entries with some older ones in
front.** The entries in front were added before, and not again. -/
theorem replay_append (hW : 0 < W) {old new : List DeduplicationEntry} (h : FreshAdds W (old ++ new)) :
    ∃ stranded, (replay W (old ++ new)).queue = stranded ++ (replay W new).queue ∧
      ∀ node ∈ stranded, ∀ e ∈ new, e.dropped = false → e.blockId ≠ node.1 := by
  induction new using List.reverseRecOn with
  | nil =>
    refine ⟨(replay W old).queue, ?_, ?_⟩
    · rw [List.append_nil]
      exact (List.append_nil _).symm
    · intro node _ e he
      cases he
  | append_singleton new e ih =>
    rw [← List.append_assoc] at h ⊢
    obtain ⟨hfresh, hnew⟩ := freshAdds_snoc.1 h
    obtain ⟨stranded, hqueue, hstranded⟩ := ih hfresh
    obtain ⟨hmax, hlen⟩ := replay_bounds hW (old ++ new)
    obtain ⟨hmax', _⟩ := replay_bounds hW new
    rw [replay_snoc, replay_snoc]
    unfold apply
    cases hd : e.dropped with
    | true =>
      -- the key goes from both, wherever it is
      simp only [if_true]
      refine ⟨stranded.filter fun node => node.1 ≠ e.blockId, ?_, ?_⟩
      · unfold LimitedOrderedHashMap.erase
        dsimp only
        rw [hqueue, List.filter_append]
      · intro node hnode x hx hadd
        rcases List.mem_append.1 hx with hx | hx
        · exact hstranded node (List.mem_filter.1 hnode).1 x hx hadd
        · obtain rfl := List.mem_singleton.1 hx
          rw [hd] at hadd
          cases hadd
    | false =>
      simp only [Bool.false_eq_true, if_false]
      have hall := hnew hd
      have hkeys : ∀ node ∈ stranded ++ (replay W new).queue, node.1 ≠ e.blockId := by
        intro node hnode heq
        refine hall ?_
        unfold LimitedOrderedHashMap.contains
        rw [hqueue, ← heq]
        exact List.mem_map_of_mem hnode
      have hnone : ¬ (replay W new).contains e.blockId := by
        intro hc
        obtain ⟨node, hnode, heq⟩ := List.mem_map.1 hc
        exact hkeys node (List.mem_append_right _ hnode) heq
      rw [queue_insert hall, queue_insert hnone]
      rw [hqueue, List.length_append] at hlen
      -- a full map forgets a stranded entry first
      refine ⟨if (replay W (old ++ new)).queue.length = W then stranded.drop 1 else stranded, ?_, ?_⟩
      · rw [← List.append_assoc]
        congr 1
        unfold LimitedOrderedHashMap.room
        rw [hmax, hmax', hqueue, List.length_append]
        cases stranded with
        | nil => simp
        | cons node rest =>
          rw [List.length_cons] at hlen ⊢
          have hnotfull : ¬ (replay W new).queue.length = W := by omega
          rw [if_neg hnotfull]
          split
          · rfl
          · rfl
      · intro node hnode x hx hadd
        have hmem : node ∈ stranded := by
          split at hnode
          · exact List.mem_of_mem_drop hnode
          · exact hnode
        rcases List.mem_append.1 hx with hx | hx
        · exact hstranded node hmem x hx hadd
        · obtain rfl := List.mem_singleton.1 hx
          exact (hkeys node (List.mem_append_left _ hmem)).symm

/-- **The newest entries alone give the map exactly when each live key is added by one of
them.** -/
theorem replay_eq_iff (hW : 0 < W) {old new : List DeduplicationEntry} (h : FreshAdds W (old ++ new)) :
    replay W new = replay W (old ++ new) ↔
      ∀ node ∈ (replay W (old ++ new)).queue, ∃ e ∈ new, e.dropped = false ∧ e.blockId = node.1 := by
  obtain ⟨stranded, hqueue, hstranded⟩ := replay_append hW h
  constructor
  · intro heq node hnode
    rw [← heq] at hnode
    obtain ⟨e, he, hadd, hid, _⟩ := mem_replay hnode
    exact ⟨e, he, hadd, hid⟩
  · intro hall
    have hnil : stranded = [] := by
      cases stranded with
      | nil => rfl
      | cons node rest =>
        obtain ⟨e, he, hadd, hid⟩ := hall node (by rw [hqueue]; exact List.mem_cons_self)
        exact absurd hid (hstranded node List.mem_cons_self e he hadd)
    rw [hnil, List.nil_append] at hqueue
    have hsize : (replay W new).maxSize = (replay W (old ++ new)).maxSize :=
      (replay_bounds hW new).1.trans (replay_bounds hW (old ++ new)).1.symm
    cases hn : replay W new
    cases ho : replay W (old ++ new)
    simp_all

/-! ## Records -/

variable [NumberText]

open TextReader IntText NumberText

/-- The record of an entry. -/
def record (e : DeduplicationEntry) : DeduplicationLogRecord where
  operation := if e.dropped then .drop else .add
  partName := e.partInfo.getPartNameV1
  blockId := e.blockId

/-- The words of the record end where they should, and the name of the part is its own. -/
structure Readable (v : ℕ) (e : DeduplicationEntry) : Prop where
  partName : ∀ c ∈ e.partInfo.getPartNameV1.toList, endsString c = false
  blockId : ∀ c ∈ e.blockId.toList, endsString c = false
  fromPartName : fromPartName e.partInfo.getPartNameV1 v = .ok e.partInfo

variable {v : ℕ} {e : DeduplicationEntry} {es : List DeduplicationEntry}

theorem applyRecord_record (h : e.Readable v) (m : LimitedOrderedHashMap PartInfo) :
    applyRecord v m e.record = .ok (apply m e) := by
  unfold applyRecord apply record
  cases hd : e.dropped with
  | true => rfl
  | false =>
    simp only [Bool.false_eq_true, if_false]
    rw [if_neg (by decide), h.fromPartName]
    rfl

omit [NumberText] in
theorem NoDigit.tab (rest : List Char) : NoDigit ("\t".toList ++ rest) := by
  intro c hc
  cases hc
  decide

variable [LawfulNumberText]

open LawfulNumberText

/-- **A record is read back.** -/
theorem takes_record (h : e.Readable v) (rest : List Char) : Takes readRecord e.record.text e.record rest := by
  have hop : IntType.uint8.Holds e.record.operation.toInt := by
    unfold record
    cases e.dropped with
    | true => exact ⟨(by decide : (0 : ℤ) ≤ 2), (by decide : (2 : ℤ) ≤ 2 ^ 8 - 1)⟩
    | false => exact ⟨(by decide : (0 : ℤ) ≤ 1), (by decide : (1 : ℤ) ≤ 2 ^ 8 - 1)⟩
  have hback : DeduplicationOp.ofInt e.record.operation.toInt = e.record.operation := by
    unfold record
    cases e.dropped with
    | true => rfl
    | false => rfl
  have hend : ∀ (s : String) (rest : List Char), s = "\t" ∨ s = "\n" →
      ∀ c ∈ (s.toList ++ rest).head?, endsString c = true := by
    intro s rest hs c hc
    rcases hs with rfl | rfl
    · cases hc
      decide
    · cases hc
      decide
  unfold readRecord DeduplicationLogRecord.text
  refine (takes_int .uint8 _ _ hop ?_).bind ?_
  · simp only [List.append_assoc]
    exact NoDigit.tab _
  refine (Takes.assertString "\t" _).bind ?_
  refine (Takes.takeUntil h.partName ?_).bind ?_
  · rw [List.append_assoc]
    exact hend "\t" _ (Or.inl rfl)
  refine (Takes.assertString "\t" _).bind ?_
  refine (Takes.takeUntil h.blockId (hend "\n" _ (Or.inr rfl))).bind ?_
  refine (Takes.assertString "\n" _).bind_nil ?_
  rw [hback]
  exact Takes.pure _ rest

omit [LawfulNumberText] in
theorem text_pos (r : DeduplicationLogRecord) : 0 < r.text.length := by
  unfold DeduplicationLogRecord.text
  simp

omit [LawfulNumberText] in
theorem not_isEmpty_text (r : DeduplicationLogRecord) (rest : List Char) :
    ¬ (r.text ++ rest).isEmpty = true := by
  have hpos := text_pos r
  rw [List.isEmpty_iff, ← List.length_eq_zero_iff, List.length_append]
  omega

/-- The text of the entries of a log. -/
def text (es : List DeduplicationEntry) : List Char := es.flatMap fun e => e.record.text

/-- **A log file is loaded as the replay of its records.** -/
theorem loadRecords_entries (h : ∀ e ∈ es, e.Readable v) {fuel : ℕ} (hfuel : (text es).length ≤ fuel)
    (m : LimitedOrderedHashMap PartInfo) (total : ℕ) :
    loadRecords v fuel (text es) m total = (es.foldl apply m, .ok (total + es.length)) := by
  induction es generalizing fuel m total with
  | nil =>
    cases fuel with
    | zero => rfl
    | succ fuel => rfl
  | cons e es ih =>
    have hread := h e List.mem_cons_self
    have hpos := text_pos e.record
    have hsplit : text (e :: es) = e.record.text ++ text es := rfl
    rw [hsplit, List.length_append] at hfuel
    cases fuel with
    | zero => omega
    | succ fuel =>
      have htake := takes_record hread (text es)
      unfold Takes at htake
      rw [hsplit, loadRecords, if_neg (not_isEmpty_text e.record _), htake]
      simp only [applyRecord_record hread]
      rw [ih (fun x hx => h x (List.mem_cons_of_mem e hx)) (by omega), List.length_cons, List.foldl_cons]
      congr 2
      omega

theorem readRecords_entries (h : ∀ e ∈ es, e.Readable v) {fuel : ℕ} (hfuel : (text es).length ≤ fuel) :
    readRecords fuel (text es) = es.map record := by
  induction es generalizing fuel with
  | nil =>
    cases fuel with
    | zero => rfl
    | succ fuel => rfl
  | cons e es ih =>
    have hread := h e List.mem_cons_self
    have hpos := text_pos e.record
    have hsplit : text (e :: es) = e.record.text ++ text es := rfl
    rw [hsplit, List.length_append] at hfuel
    cases fuel with
    | zero => omega
    | succ fuel =>
      have htake := takes_record hread (text es)
      unfold Takes at htake
      rw [hsplit, readRecords, if_neg (not_isEmpty_text e.record _), htake]
      simp only [List.map_cons]
      rw [ih (fun x hx => h x (List.mem_cons_of_mem e hx)) (by omega)]

end DeduplicationEntry

end MergeTree
