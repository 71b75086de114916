import MergeTree.Proof.ReadPool
import MergeTree.Spec.ParallelReplicasPool

/-!
# A replica loses nothing that it receives

Both pools keep a balance for every part: the marks of the tasks, then those in the buffer, are the
marks received (`InOrderInv`, `DefaultInv`). In reverse order all three lists grow at the front; `joined`
stands for both directions. What one call takes and what it receives settle the balance of the next state.

The number of marks of a block is computed with 64 bits. When the sum overflows it is zero, and in reverse
order the second task of a part is empty: `getTask_losesNothing_iff` has the exact condition.
-/

namespace MergeTree

namespace ParallelReplicas

/-! ## The direction of reading -/

section Direction

variable {α : Type} {mode : CoordinationMode}

/-- `next` after `first` in the direction of reading. -/
def joined (mode : CoordinationMode) (first next : List α) : List α := if mode = .withOrder then first ++ next else next ++ first

/-- Lists of ranges, one after another in the direction of reading. -/
def allRanges (mode : CoordinationMode) (lists : List MarkRanges) : MarkRanges :=
  if mode = .withOrder then lists.flatten else lists.reverse.flatten

@[simp] theorem joined_nil_left (l : List α) : joined mode [] l = l := by
  unfold joined
  split_ifs <;> simp

@[simp] theorem joined_nil_right (l : List α) : joined mode l [] = l := by
  unfold joined
  split_ifs <;> simp

theorem joined_assoc (a b c : List α) : joined mode (joined mode a b) c = joined mode a (joined mode b c) := by
  unfold joined
  split_ifs <;> simp

theorem joined_eq_nil {a b : List α} : joined mode a b = [] ↔ a = [] ∧ b = [] := by
  unfold joined
  split_ifs
  · exact List.append_eq_nil_iff
  · rw [List.append_eq_nil_iff, and_comm]

theorem mem_joined {a b : List α} {x : α} : x ∈ joined mode a b ↔ x ∈ a ∨ x ∈ b := by
  unfold joined
  split_ifs
  · exact List.mem_append
  · rw [List.mem_append, or_comm]

theorem sublist_joined_left (a b : List α) : a.Sublist (joined mode a b) := by
  unfold joined
  split_ifs
  · exact List.sublist_append_left a b
  · exact List.sublist_append_right b a

theorem marks_append (a b : MarkRanges) : MarkRanges.marks (a ++ b) = a.marks ++ b.marks := List.flatMap_append

theorem marks_joined (a b : MarkRanges) : MarkRanges.marks (joined mode a b) = joined mode a.marks b.marks := by
  unfold joined
  split_ifs <;> exact marks_append _ _

@[simp] theorem allRanges_nil : allRanges mode [] = [] := by
  unfold allRanges
  split_ifs <;> rfl

theorem allRanges_append (a b : List MarkRanges) :
    allRanges mode (a ++ b) = joined mode (allRanges mode a) (allRanges mode b) := by
  unfold allRanges joined
  split_ifs
  · exact List.flatten_append
  · rw [List.reverse_append, List.flatten_append]

@[simp] theorem allRanges_singleton (ranges : MarkRanges) : allRanges mode [ranges] = ranges := by
  unfold allRanges
  split_ifs <;> simp

end Direction

/-! ## Cutting ranges -/

/-- No range is empty. -/
def NonEmpty (ranges : MarkRanges) : Prop := ∀ range ∈ ranges, range.beginMark < range.endMark

section Cutting

variable {ranges : MarkRanges} {maxMarks m : ℕ} {cfg : InOrderConfig}

theorem nonEmpty_nil : NonEmpty [] := nofun

theorem nonEmpty_cons {range : MarkRange} : NonEmpty (range :: ranges) ↔ range.beginMark < range.endMark ∧ NonEmpty ranges :=
  List.forall_mem_cons

theorem nonEmpty_append {a b : MarkRanges} : NonEmpty (a ++ b) ↔ NonEmpty a ∧ NonEmpty b := List.forall_mem_append

theorem NonEmpty.marks_ne_nil (h : NonEmpty ranges) (hne : ranges ≠ []) : ranges.marks ≠ [] := by
  obtain ⟨range, rest, rfl⟩ := List.exists_cons_of_ne_nil hne
  have hrange := (nonEmpty_cons.1 h).1
  have hmem : range.beginMark ∈ MarkRanges.marks (range :: rest) :=
    MarkRanges.mem_marks.2 ⟨range, List.mem_cons_self, le_refl _, hrange⟩
  exact List.ne_nil_of_mem hmem

theorem marks_split {a b c : ℕ} (hab : a ≤ b) (hbc : b ≤ c) :
    MarkRange.marks ⟨a, b⟩ ++ MarkRange.marks ⟨b, c⟩ = MarkRange.marks ⟨a, c⟩ := by
  unfold MarkRange.marks
  dsimp only
  have happend := @List.range'_append_1 a (b - a) (c - b)
  rw [Nat.add_sub_cancel' hab] at happend
  rw [happend]
  congr 1
  omega

/-- What is cut off in the direction of reading. -/
structure Cuts (mode : CoordinationMode) (ranges : MarkRanges) (piece : Piece) : Prop where
  marks : joined mode piece.result.marks piece.left.marks = ranges.marks
  result_ne : piece.result ≠ []
  result : NonEmpty piece.result
  left : NonEmpty piece.left
  pos : 0 < piece.marksInRange

theorem cuts_takeFront (h : NonEmpty ranges) (hne : ranges ≠ []) (hm : 0 < m) : Cuts .withOrder ranges (takeFront m ranges) := by
  obtain ⟨range, rest, rfl⟩ := List.exists_cons_of_ne_nil hne
  obtain ⟨hrange, hrest⟩ := nonEmpty_cons.1 h
  simp only [takeFront]
  split_ifs with hlt
  · refine ⟨?_, List.cons_ne_nil _ _, nonEmpty_cons.2 ⟨by dsimp only; omega, nonEmpty_nil⟩, nonEmpty_cons.2 ⟨hlt, hrest⟩,
      by dsimp only; omega⟩
    have hsplit := marks_split (Nat.le_add_right range.beginMark m) hlt.le
    simp only [joined, if_true, MarkRanges.marks_cons]
    rw [← List.append_assoc, List.append_assoc (MarkRange.marks _), show MarkRanges.marks [] = [] from rfl, List.nil_append, hsplit]
  · refine ⟨?_, List.cons_ne_nil _ _, nonEmpty_cons.2 ⟨hrange, nonEmpty_nil⟩, hrest, hm⟩
    simp only [joined, if_true, MarkRanges.marks_cons, show MarkRanges.marks [] = [] from rfl, List.append_nil]

theorem splitLoop_spec : ∀ (fuel : ℕ) {m b e : ℕ}, b < e → 0 < m →
    (splitLoop maxMarks fuel m b e).1.marks = MarkRange.marks ⟨b, e⟩ ∧ (splitLoop maxMarks fuel m b e).1 ≠ [] ∧
      NonEmpty (splitLoop maxMarks fuel m b e).1 ∧ 0 < (splitLoop maxMarks fuel m b e).2 := by
  have hwhole : ∀ {m b e : ℕ}, b < e → 0 < m → MarkRanges.marks [⟨b, e⟩] = MarkRange.marks ⟨b, e⟩ ∧ [MarkRange.mk b e] ≠ [] ∧
      NonEmpty [⟨b, e⟩] ∧ 0 < m := fun hb hm =>
    ⟨List.append_nil _, List.cons_ne_nil _ _, nonEmpty_cons.2 ⟨hb, nonEmpty_nil⟩, hm⟩
  intro fuel
  induction fuel with
  | zero => exact fun hb hm => hwhole hb hm
  | succ fuel ih =>
    intro m b e hb hm
    unfold splitLoop
    split_ifs with hlt
    · obtain ⟨hmarks, -, hnonempty, hpos⟩ := @ih (m * 2) (b + m) e hlt.2 (by omega)
      refine ⟨?_, List.cons_ne_nil _ _, nonEmpty_cons.2 ⟨by dsimp only; omega, hnonempty⟩, hpos⟩
      rw [MarkRanges.marks_cons, hmarks]
      exact marks_split (Nat.le_add_right b m) hlt.2.le
    · exact hwhole hb hm

theorem splitRanges_spec : ∀ {ranges : MarkRanges} {m : ℕ}, NonEmpty ranges → 0 < m →
    (splitRanges maxMarks m ranges).1.marks = ranges.marks ∧ (ranges ≠ [] → (splitRanges maxMarks m ranges).1 ≠ []) ∧
      NonEmpty (splitRanges maxMarks m ranges).1 ∧ 0 < (splitRanges maxMarks m ranges).2 := by
  intro ranges
  induction ranges with
  | nil => exact fun _ hm => ⟨rfl, fun hne => absurd rfl hne, nonEmpty_nil, hm⟩
  | cons range rest ih =>
    intro m h hm
    obtain ⟨hrange, hrest⟩ := nonEmpty_cons.1 h
    obtain ⟨hmarks, hne, hnonempty, hpos⟩ := splitLoop_spec (range.endMark - range.beginMark) hrange hm
    obtain ⟨hmarks', -, hnonempty', hpos'⟩ := ih hrest hpos
    unfold splitRanges
    dsimp only
    refine ⟨?_, fun _ => List.append_ne_nil_of_left_ne_nil hne _, nonEmpty_append.2 ⟨hnonempty, hnonempty'⟩, hpos'⟩
    rw [marks_append, MarkRanges.marks_cons, hmarks, hmarks']

theorem cuts_takeBack {mode : CoordinationMode} (hmode : mode ≠ .withOrder) (h : NonEmpty ranges) (hne : ranges ≠ []) (hm : 0 < m)
    (hmax : 0 < maxMarks) : Cuts mode ranges (takeBack maxMarks m ranges) := by
  obtain ⟨init, range, rfl⟩ : ∃ init range, ranges = init ++ [range] :=
    ⟨ranges.dropLast, ranges.getLast hne, (List.dropLast_append_getLast hne).symm⟩
  obtain ⟨hinit, hrange⟩ := nonEmpty_append.1 h
  have hrange := (nonEmpty_cons.1 hrange).1
  have hjoined : ∀ {a b : List ℕ}, joined mode a b = b ++ a := fun {a b} => if_neg hmode
  have hnil : MarkRanges.marks [] = [] := rfl
  unfold takeBack
  rw [List.getLast?_concat]
  dsimp only
  rw [List.dropLast_concat]
  split_ifs with hlt
  · refine ⟨?_, List.cons_ne_nil _ _, nonEmpty_cons.2 ⟨by dsimp only; omega, nonEmpty_nil⟩,
      nonEmpty_append.2 ⟨hinit, nonEmpty_cons.2 ⟨by dsimp only; omega, nonEmpty_nil⟩⟩, by dsimp only; omega⟩
    have hsplit := @marks_split range.beginMark (range.endMark - m) range.endMark (by omega) (Nat.sub_le _ _)
    rw [hjoined]
    simp only [marks_append, MarkRanges.marks_cons, hnil, List.append_nil]
    rw [List.append_assoc, hsplit]
  · refine ⟨?_, List.cons_ne_nil _ _, nonEmpty_cons.2 ⟨hrange, nonEmpty_nil⟩, hinit, hm⟩
    rw [hjoined, marks_append]

/-- `get_from_buffer` cuts in the direction of reading, if a block is one mark at least in reverse order. -/
theorem cuts_cutRanges (hmax : cfg.mode = .withOrder ∨ 0 < cfg.maxMarksInRange) (h : NonEmpty ranges) (hne : ranges ≠ [])
    (hm : 0 < m) : Cuts cfg.mode ranges (cutRanges cfg m ranges) := by
  unfold cutRanges
  by_cases hmode : cfg.mode = .withOrder
  · rw [if_pos hmode, hmode]
    have hall : ∀ {result : MarkRanges}, joined .withOrder result.marks (MarkRanges.marks []) = result.marks :=
      joined_nil_right _
    split_ifs
    · exact ⟨hall, hne, h, nonEmpty_nil, hm⟩
    · exact cuts_takeFront h hne hm
    · obtain ⟨hmarks, hresult, hnonempty, hpos⟩ := @splitRanges_spec cfg.maxMarksInRange _ _ h hm
      exact ⟨hall.trans hmarks, hresult hne, hnonempty, nonEmpty_nil, hpos⟩
  · rw [if_neg hmode]
    exact cuts_takeBack hmode h hne hm (hmax.resolve_left hmode)

end Cutting

/-! ## Calls -/

/-- A part as requests and responses name it. -/
abbrev Key : Type := PartTuple × String

/-- The key of a part. -/
def Part.key (part : Part) : Key := (part.partInfo.toTuple, part.projectionName)

/-- The key of a description. -/
def keyOf (desc : RangesInDataPartDescription) : Key := (desc.info.toTuple, desc.projectionName)

/-- The descriptions that a call receives. -/
def Call.received (call : Call) : RangesInDataPartsDescription :=
  match call.asked with
  | some (.response response) => response.description
  | _ => []

/-- The ranges of the task of a part that a call returns. -/
def Call.tasks (call : Call) (i : ℕ) : List MarkRanges :=
  match call.answer with
  | .task partIdx ranges => if partIdx = i then [ranges] else []
  | _ => []

/-- The tasks of a part, in the order of their creation. -/
def tasksOf (calls : List Call) (i : ℕ) : List MarkRanges := calls.flatMap fun call => call.tasks i

/-- The coordinator has said that reading is finished, or nothing. -/
def Finished (calls : List Call) : Prop :=
  ∃ call ∈ calls, call.asked = some .noResponse ∨
    ∃ response, call.asked = some (.response response) ∧ (response.description = [] ∨ response.finish)

/-- A request has failed. -/
def Failed (calls : List Call) : Prop := ∃ call ∈ calls, ∃ message, call.asked = some (.exception message)

section Calls

variable {calls : List Call} {call : Call} {i : ℕ}

theorem tasksOf_append (calls : List Call) (call : Call) (i : ℕ) : tasksOf (calls ++ [call]) i = tasksOf calls i ++ call.tasks i := by
  simp only [tasksOf, List.flatMap_append, List.flatMap_singleton]

theorem Finished.append (h : Finished calls) (call : Call) : Finished (calls ++ [call]) := by
  obtain ⟨c, hc, hfinished⟩ := h
  exact ⟨c, List.mem_append_left _ hc, hfinished⟩

theorem Failed.append (h : Failed calls) (call : Call) : Failed (calls ++ [call]) := by
  obtain ⟨c, hc, hfailed⟩ := h
  exact ⟨c, List.mem_append_left _ hc, hfailed⟩

theorem run_append {σ : Type} (getTask : σ → ℕ → Reply → Call × σ) (pool : σ) (requests : List (ℕ × Reply)) (request : ℕ × Reply) :
    run getTask pool (requests ++ [request]) =
      ((run getTask pool requests).1 ++ [(getTask (run getTask pool requests).2 request.1 request.2).1],
        (getTask (run getTask pool requests).2 request.1 request.2).2) := by
  unfold run
  rw [List.foldl_append]
  rfl

end Calls

/-! ## The pool in order -/

/-- The ranges of a part in the buffer. -/
def InOrderPool.buffered (pool : InOrderPool) (i : ℕ) : MarkRanges := (pool.bufferedTasks.getD i {}).ranges

/-- The ranges of the requested parts received, one list for each call. -/
def receivedOf (calls : List Call) (i : ℕ) : List MarkRanges := calls.map fun call => (call.received.getD i {}).ranges

/-- What the coordinator may send in the modes with order: a description for each requested part with
ranges that go on in the direction of reading, and `finish` only without marks. -/
structure InOrderReplies (cfg : InOrderConfig) (calls : List Call) : Prop where
  size : ∀ call ∈ calls, call.received = [] ∨ call.received.length = cfg.parts.length
  finish : ∀ call ∈ calls, ∀ response, call.asked = some (.response response) → response.finish = true →
    ∀ desc ∈ response.description, desc.ranges = []
  continues : ∀ i, (allRanges cfg.mode (receivedOf calls i)).Sorted

/-- The buffer is one for the parts of the pool. -/
structure BufferOK (cfg : InOrderConfig) (pool : InOrderPool) : Prop where
  keys : pool.bufferedTasks.map keyOf = cfg.parts.map Part.key
  counts : pool.perPartMarksInRange.length = cfg.parts.length
  pos : ∀ m ∈ pool.perPartMarksInRange, 0 < m
  nonempty : ∀ desc ∈ pool.bufferedTasks, NonEmpty desc.ranges

section Buffer

variable {cfg : InOrderConfig} {pool : InOrderPool} {part : Part} {m : ℕ} {buffered : RangesInDataPartsDescription}

theorem cutBuffer_none (h : ∀ desc ∈ buffered, keyOf desc ≠ part.key) : cutBuffer cfg part m buffered = none := by
  induction buffered with
  | nil => rfl
  | cons desc rest ih =>
    have hdesc := h desc List.mem_cons_self
    unfold cutBuffer
    rw [if_neg fun hmatch => hdesc (Prod.ext hmatch.1 hmatch.2.1), ih fun d hd => h d (List.mem_cons_of_mem _ hd)]
    rfl

theorem cutBuffer_eq (hnodup : (buffered.map keyOf).Nodup) {i : ℕ} {desc : RangesInDataPartDescription}
    (hdesc : buffered[i]? = some desc) (hkey : keyOf desc = part.key) :
    cutBuffer cfg part m buffered =
      if desc.ranges = [] then none
      else some (cutRanges cfg m desc.ranges, buffered.set i { desc with ranges := (cutRanges cfg m desc.ranges).left }) := by
  induction buffered generalizing i with
  | nil => cases hdesc
  | cons head rest ih =>
    obtain ⟨hhead, hrest⟩ := List.nodup_cons.1 hnodup
    unfold cutBuffer
    cases i with
    | zero =>
      obtain rfl : head = desc := Option.some.inj hdesc
      obtain ⟨hinfo, hname⟩ := Prod.mk.inj hkey
      by_cases hempty : head.ranges = []
      · rw [if_pos hempty, if_neg fun hmatch => hmatch.2.2 hempty, cutBuffer_none]
        · rfl
        · intro d hd heq
          exact hhead (hkey.trans heq.symm ▸ List.mem_map_of_mem hd)
      · rw [if_neg hempty, if_pos ⟨hinfo, hname, hempty⟩]
        rfl
    | succ i =>
      rw [List.getElem?_cons_succ] at hdesc
      have hne : keyOf head ≠ part.key := fun heq =>
        hhead ((heq.trans hkey.symm) ▸ List.mem_map_of_mem (List.mem_of_getElem? hdesc))
      rw [if_neg fun hmatch => hne (Prod.ext hmatch.1 hmatch.2.1), ih hrest hdesc]
      split_ifs
      · rfl
      · rfl

theorem BufferOK.getFromBuffer (h : BufferOK cfg pool) (hkeys : (cfg.parts.map Part.key).Nodup)
    (hmax : cfg.mode = .withOrder ∨ 0 < cfg.maxMarksInRange) {i : ℕ} (hpart : cfg.parts[i]? = some part) :
    (getFromBuffer cfg part i pool = none ∧ pool.buffered i = []) ∨
      ∃ result pool', getFromBuffer cfg part i pool = some (result, pool') ∧ BufferOK cfg pool' ∧ result ≠ [] ∧ NonEmpty result ∧
        joined cfg.mode result.marks (pool'.buffered i).marks = (pool.buffered i).marks ∧
        (∀ j, j ≠ i → pool'.buffered j = pool.buffered j) ∧ pool'.noMoreTasks = pool.noMoreTasks ∧
        pool'.failedToGetTask = pool.failedToGetTask := by
  have hi : i < cfg.parts.length := (List.getElem?_eq_some_iff.1 hpart).1
  have hlen : pool.bufferedTasks.length = cfg.parts.length := by
    have hlength := congrArg List.length h.keys
    rwa [List.length_map, List.length_map] at hlength
  obtain ⟨desc, hdesc⟩ : ∃ desc, pool.bufferedTasks[i]? = some desc := ⟨_, List.getElem?_eq_getElem (hlen ▸ hi)⟩
  have hkey : keyOf desc = part.key := by
    have hget := congrArg (fun l => l[i]?) h.keys
    simp only [List.getElem?_map, hdesc, hpart, Option.map_some, Option.some.injEq] at hget
    exact hget
  have hbuffered : pool.buffered i = desc.ranges := by rw [InOrderPool.buffered, List.getD_eq_getElem?_getD, hdesc, Option.getD_some]
  have hdescOK := h.nonempty desc (List.mem_of_getElem? hdesc)
  have hm : 0 < pool.perPartMarksInRange.getD i 0 := by
    rw [List.getD_eq_getElem _ _ (h.counts ▸ hi)]
    exact h.pos _ (List.getElem_mem _)
  have hcut := @cutBuffer_eq cfg part (pool.perPartMarksInRange.getD i 0) pool.bufferedTasks (h.keys ▸ hkeys) i desc hdesc hkey
  unfold ParallelReplicas.getFromBuffer
  rw [hcut, hbuffered]
  by_cases hempty : desc.ranges = []
  · rw [if_pos hempty]
    exact Or.inl ⟨rfl, hempty⟩
  · rw [if_neg hempty]
    have hcuts := cuts_cutRanges hmax hdescOK hempty hm
    refine Or.inr ⟨_, _, rfl, ⟨?_, ?_, ?_, ?_⟩, hcuts.result_ne, hcuts.result, ?_, fun j hj => ?_, rfl, rfl⟩
    · rw [← h.keys, List.map_set]
      obtain ⟨hlt, hget⟩ := List.getElem?_eq_some_iff.1 (show (pool.bufferedTasks.map keyOf)[i]? = some (keyOf desc) by
        rw [List.getElem?_map, hdesc]; rfl)
      dsimp only [keyOf] at hget ⊢
      rw [← hget]
      exact List.set_getElem_self hlt
    · rw [List.length_set]
      exact h.counts
    · intro m' hm'
      rcases List.mem_or_eq_of_mem_set hm' with hm' | rfl
      · exact h.pos _ hm'
      · exact hcuts.pos
    · intro d hd
      rcases List.mem_or_eq_of_mem_set hd with hd | rfl
      · exact h.nonempty _ hd
      · exact hcuts.left
    · simp only [InOrderPool.buffered, List.getD_eq_getElem?_getD]
      rw [List.getElem?_set_self (hlen ▸ hi), Option.getD_some]
      exact hcuts.marks
    · simp only [InOrderPool.buffered, List.getD_eq_getElem?_getD]
      rw [List.getElem?_set_ne (Ne.symm hj)]

theorem ranges_fillBuffer {mode : CoordinationMode} : ∀ {buffered received : RangesInDataPartsDescription},
    received.length = buffered.length → ∀ i,
      ((fillBuffer mode buffered received).getD i {}).ranges = joined mode (buffered.getD i {}).ranges (received.getD i {}).ranges := by
  intro buffered
  induction buffered with
  | nil =>
    intro received hlen i
    obtain rfl := List.length_eq_zero_iff.1 hlen
    simp [fillBuffer]
  | cons desc rest ih =>
    intro received hlen i
    cases received with
    | nil => cases hlen
    | cons next more =>
      cases i with
      | zero => rfl
      | succ i => exact ih (Nat.succ.inj hlen) i

theorem keys_fillBuffer {mode : CoordinationMode} : ∀ {buffered received : RangesInDataPartsDescription},
    (fillBuffer mode buffered received).map keyOf = buffered.map keyOf := by
  intro buffered
  induction buffered with
  | nil => exact fun {received} => by cases received <;> rfl
  | cons desc rest ih =>
    intro received
    cases received with
    | nil => rfl
    | cons next more =>
      unfold fillBuffer
      rw [List.map_cons, List.map_cons, ih]
      rfl

theorem nonEmpty_fillBuffer {mode : CoordinationMode} : ∀ {buffered received : RangesInDataPartsDescription},
    (∀ desc ∈ buffered, NonEmpty desc.ranges) → (∀ desc ∈ received, NonEmpty desc.ranges) →
      ∀ desc ∈ fillBuffer mode buffered received, NonEmpty desc.ranges := by
  intro buffered
  induction buffered with
  | nil => exact fun {received} hbuffered _ => by cases received <;> exact hbuffered
  | cons desc rest ih =>
    intro received hbuffered hreceived
    cases received with
    | nil => exact hbuffered
    | cons next more =>
      intro d hd
      rcases List.mem_cons.1 hd with rfl | hd
      · intro range hrange
        rcases mem_joined.1 (show range ∈ joined mode desc.ranges next.ranges from hrange) with hrange | hrange
        · exact hbuffered desc List.mem_cons_self range hrange
        · exact hreceived next List.mem_cons_self range hrange
      · exact ih (fun d hd => hbuffered d (List.mem_cons_of_mem _ hd)) (fun d hd => hreceived d (List.mem_cons_of_mem _ hd)) d hd

end Buffer

/-- The coordinator has just sent no marks of the part. -/
def JustSentNone (call : Call) : Prop :=
  ∃ response, call.asked = some (.response response) ∧ (response.description.getD call.taskIdx {}).ranges = []

/-- A call of `getTask`: what it takes and what it leaves is what was there and what it received. -/
structure InOrderStep (cfg : InOrderConfig) (pool : InOrderPool) (call : Call) (pool' : InOrderPool) : Prop where
  buffer : BufferOK cfg pool'
  balance : ∀ i, joined cfg.mode (allRanges cfg.mode (call.tasks i)).marks (pool'.buffered i).marks =
    joined cfg.mode (pool.buffered i).marks (call.received.getD i {}).ranges.marks
  tasks : ∀ i, ∀ ranges ∈ call.tasks i, ranges ≠ [] ∧ NonEmpty ranges
  finished : pool'.noMoreTasks = true → pool.noMoreTasks = true ∨ Finished [call]
  failed : pool'.failedToGetTask = true → pool.failedToGetTask = true ∨ Failed [call]
  null : call.answer = .null → pool'.buffered call.taskIdx = [] ∧
    (JustSentNone call ∨ pool'.noMoreTasks = true ∨ pool'.failedToGetTask = true)

section Step

variable {cfg : InOrderConfig} {pool pool' : InOrderPool} {part : Part} {i : ℕ} {asked : Option Reply}

theorem inOrderStep_of_none {answer : Answer} (h : BufferOK cfg pool) (hsame : pool'.bufferedTasks = pool.bufferedTasks)
    (hcounts : pool'.perPartMarksInRange = pool.perPartMarksInRange) (htask : ∀ partIdx ranges, answer ≠ .task partIdx ranges)
    (hreceived : ∀ desc ∈ Call.received ⟨i, asked, answer⟩, desc.ranges = [])
    (hfinished : pool'.noMoreTasks = true → pool.noMoreTasks = true ∨ Finished [⟨i, asked, answer⟩])
    (hfailed : pool'.failedToGetTask = true → pool.failedToGetTask = true ∨ Failed [⟨i, asked, answer⟩])
    (hnull : answer = .null → pool.buffered i = [] ∧ (pool'.noMoreTasks = true ∨ pool'.failedToGetTask = true)) :
    InOrderStep cfg pool ⟨i, asked, answer⟩ pool' := by
  have hbuffered : ∀ j, pool'.buffered j = pool.buffered j := fun j => by rw [InOrderPool.buffered, InOrderPool.buffered, hsame]
  have htasks : ∀ j, Call.tasks ⟨i, asked, answer⟩ j = [] := fun j => by
    unfold Call.tasks
    split
    · exact absurd (by assumption) (htask _ _)
    · rfl
  refine ⟨⟨hsame ▸ h.keys, hcounts ▸ h.counts, hcounts ▸ h.pos, hsame ▸ h.nonempty⟩, fun j => ?_, fun j => ?_, hfinished, hfailed,
    fun hanswer => ?_⟩
  · have hnone : ((Call.received ⟨i, asked, answer⟩).getD j {}).ranges = [] := by
      rw [List.getD_eq_getElem?_getD]
      cases hget : (Call.received ⟨i, asked, answer⟩)[j]? with
      | none => rfl
      | some desc => exact hreceived desc (List.mem_of_getElem? hget)
    rw [htasks, hnone, hbuffered, allRanges_nil]
    simp only [show MarkRanges.marks [] = [] from rfl, joined_nil_left, joined_nil_right]
  · rw [htasks]
    nofun
  · obtain ⟨hempty, hflags⟩ := hnull hanswer
    exact ⟨(hbuffered i).trans hempty, Or.inr hflags⟩

theorem inOrderStep_of_task {pool₁ : InOrderPool} {result : MarkRanges} (hok : BufferOK cfg pool') (hne : result ≠ [])
    (hresult : NonEmpty result)
    (hcut : joined cfg.mode result.marks (pool'.buffered i).marks = (pool₁.buffered i).marks)
    (hothers : ∀ j, j ≠ i → pool'.buffered j = pool₁.buffered j)
    (hreceived : ∀ j, pool₁.buffered j =
      joined cfg.mode (pool.buffered j) ((Call.received ⟨i, asked, .task i result⟩).getD j {}).ranges)
    (hfinished : pool'.noMoreTasks = pool.noMoreTasks) (hfailed : pool'.failedToGetTask = pool.failedToGetTask) :
    InOrderStep cfg pool ⟨i, asked, .task i result⟩ pool' := by
  have hself : Call.tasks ⟨i, asked, .task i result⟩ i = [result] := if_pos rfl
  have hnone : ∀ j, j ≠ i → Call.tasks ⟨i, asked, .task i result⟩ j = [] := fun j hj => if_neg (Ne.symm hj)
  refine ⟨hok, fun j => ?_, fun j => ?_, fun h => Or.inl (hfinished ▸ h), fun h => Or.inl (hfailed ▸ h), nofun⟩
  · have hmarks := congrArg MarkRanges.marks (hreceived j)
    rw [marks_joined] at hmarks
    rw [← hmarks]
    by_cases hj : j = i
    · rw [hj, hself, allRanges_singleton]
      exact hcut
    · rw [hnone j hj, hothers j hj, allRanges_nil]
      exact joined_nil_left _
  · by_cases hj : j = i
    · rw [hj, hself]
      intro ranges hranges
      rw [List.mem_singleton.1 hranges]
      exact ⟨hne, hresult⟩
    · rw [hnone j hj]
      nofun

/-- **One call of `getTask`.** -/
theorem inOrderStep_getTask (h : BufferOK cfg pool) (hkeys : (cfg.parts.map Part.key).Nodup)
    (hmax : cfg.mode = .withOrder ∨ 0 < cfg.maxMarksInRange) (i : ℕ) (reply : Reply)
    (hsize : (getTaskInOrder cfg pool i reply).1.received = [] ∨
      (getTaskInOrder cfg pool i reply).1.received.length = cfg.parts.length)
    (hfinish : ∀ response, (getTaskInOrder cfg pool i reply).1.asked = some (.response response) → response.finish = true →
      ∀ desc ∈ response.description, desc.ranges = [])
    (hnonempty : ∀ desc ∈ (getTaskInOrder cfg pool i reply).1.received, NonEmpty desc.ranges) :
    InOrderStep cfg pool (getTaskInOrder cfg pool i reply).1 (getTaskInOrder cfg pool i reply).2 := by
  unfold getTaskInOrder at hsize hfinish hnonempty ⊢
  cases hpart : cfg.parts[i]? with
  | none => exact inOrderStep_of_none h rfl rfl nofun nofun Or.inl Or.inl nofun
  | some part =>
    simp only [hpart] at hsize hfinish hnonempty ⊢
    rcases h.getFromBuffer hkeys hmax hpart with ⟨hget, hempty⟩ | ⟨result, pool', hget, hok, hne, hresult, hcut, hothers, hfin, hfail⟩
    · simp only [hget] at hsize hfinish hnonempty ⊢
      by_cases hfin : pool.noMoreTasks = true
      · rw [if_pos hfin]
        exact inOrderStep_of_none h rfl rfl nofun nofun Or.inl Or.inl fun _ => ⟨hempty, Or.inl hfin⟩
      rw [if_neg hfin] at hsize hfinish hnonempty ⊢
      by_cases hfail : pool.failedToGetTask = true
      · rw [if_pos hfail]
        exact inOrderStep_of_none h rfl rfl nofun nofun Or.inl Or.inl fun _ => ⟨hempty, Or.inr hfail⟩
      rw [if_neg hfail] at hsize hfinish hnonempty ⊢
      cases reply with
      | exception message =>
        exact inOrderStep_of_none h rfl rfl nofun nofun Or.inl
          (fun _ => Or.inr ⟨_, List.mem_singleton_self _, message, rfl⟩) nofun
      | noResponse =>
        exact inOrderStep_of_none h rfl rfl nofun nofun (fun _ => Or.inr ⟨_, List.mem_singleton_self _, Or.inl rfl⟩) Or.inl
          fun _ => ⟨hempty, Or.inl rfl⟩
      | response response =>
        dsimp only at hsize hfinish hnonempty ⊢
        by_cases hdone : response.description = [] ∨ response.finish = true
        · rw [if_pos hdone] at hfinish ⊢
          refine inOrderStep_of_none h rfl rfl nofun ?_
            (fun _ => Or.inr ⟨_, List.mem_singleton_self _, Or.inr ⟨response, rfl, hdone⟩⟩) Or.inl fun _ => ⟨hempty, Or.inl rfl⟩
          intro desc hdesc
          have hdesc : desc ∈ response.description := hdesc
          rcases hdone with hnil | hfinished
          · rw [hnil] at hdesc
            cases hdesc
          · exact hfinish response rfl hfinished desc hdesc
        · rw [if_neg hdone] at hsize hnonempty ⊢
          -- the ranges received are in the buffer
          set filled : InOrderPool := { pool with bufferedTasks := fillBuffer cfg.mode pool.bufferedTasks response.description }
            with hfilled
          have hdescription : ∀ {answer : Answer}, Call.received ⟨i, some (.response response), answer⟩ = response.description := rfl
          have hcases : (∃ result pool', getFromBuffer cfg part i filled = some (result, pool')) ∨
              getFromBuffer cfg part i filled = none := by
            cases getFromBuffer cfg part i filled with
            | none => exact Or.inr rfl
            | some taken => exact Or.inl ⟨taken.1, taken.2, rfl⟩
          have hlen : pool.bufferedTasks.length = cfg.parts.length := by
            have hlength := congrArg List.length h.keys
            rwa [List.length_map, List.length_map] at hlength
          have hreceived : response.description.length = cfg.parts.length ∧ ∀ desc ∈ response.description, NonEmpty desc.ranges := by
            rcases hcases with ⟨result, pool', hget⟩ | hget
            · simp only [hget] at hsize hnonempty
              exact ⟨hsize.resolve_left fun hnil => hdone (Or.inl hnil), hnonempty⟩
            · simp only [hget] at hsize hnonempty
              exact ⟨hsize.resolve_left fun hnil => hdone (Or.inl hnil), hnonempty⟩
          have hranges : ∀ j, filled.buffered j = joined cfg.mode (pool.buffered j) (response.description.getD j {}).ranges :=
            ranges_fillBuffer (hreceived.1.trans hlen.symm)
          have hok : BufferOK cfg filled :=
            ⟨keys_fillBuffer.trans h.keys, h.counts, h.pos, nonEmpty_fillBuffer h.nonempty hreceived.2⟩
          rcases hok.getFromBuffer hkeys hmax hpart with
            ⟨hget, hempty'⟩ | ⟨result, pool', hget, hok', hne, hresult, hcut, hothers, hfin', hfail'⟩
          · simp only [hget]
            refine ⟨hok, fun j => ?_, fun j => nofun, Or.inl, Or.inl, fun _ => ⟨hempty', Or.inl ⟨response, rfl, ?_⟩⟩⟩
            · have hmarks := congrArg MarkRanges.marks (hranges j)
              rw [marks_joined] at hmarks
              rw [hdescription, ← hmarks]
              exact (congrArg (fun l => joined cfg.mode (MarkRanges.marks l) _) allRanges_nil).trans (joined_nil_left _)
            · exact (joined_eq_nil.1 ((hranges i).symm.trans hempty')).2
          · simp only [hget]
            exact inOrderStep_of_task hok' hne hresult hcut hothers hranges hfin' hfail'
    · simp only [hget]
      exact inOrderStep_of_task hok hne hresult hcut hothers
        (fun j => (joined_nil_right (pool.buffered j)).symm) hfin hfail

end Step

/-- Nothing that the pool in order received is lost, after some calls. -/
structure KeepsInOrder (cfg : InOrderConfig) (calls : List Call) (pool : InOrderPool) : Prop where
  balance : ∀ i, joined cfg.mode (allRanges cfg.mode (tasksOf calls i)).marks (pool.buffered i).marks =
    (allRanges cfg.mode (receivedOf calls i)).marks
  nonempty : ∀ i, ∀ ranges ∈ tasksOf calls i, ranges.marks ≠ []
  once : ∀ i, ((tasksOf calls i).flatMap MarkRanges.marks).Nodup
  withOrder : cfg.mode = .withOrder → ∀ i, ((tasksOf calls i).flatMap MarkRanges.marks).Pairwise (· < ·)
  reverseOrder : cfg.mode ≠ .withOrder →
    ∀ i, (tasksOf calls i).Pairwise fun earlier later => ∀ m ∈ later.marks, ∀ m' ∈ earlier.marks, m < m'
  null : ∀ call, calls.getLast? = some call → call.answer = .null →
    pool.buffered call.taskIdx = [] ∧ (JustSentNone call ∨ Finished calls ∨ Failed calls)

/-- What holds after some calls, before the order of the ranges received matters. -/
structure InOrderInv (cfg : InOrderConfig) (calls : List Call) (pool : InOrderPool) : Prop where
  buffer : BufferOK cfg pool
  balance : ∀ i, joined cfg.mode (allRanges cfg.mode (tasksOf calls i)).marks (pool.buffered i).marks =
    (allRanges cfg.mode (receivedOf calls i)).marks
  tasks : ∀ i, ∀ ranges ∈ tasksOf calls i, ranges ≠ [] ∧ NonEmpty ranges
  finished : pool.noMoreTasks = true → Finished calls
  failed : pool.failedToGetTask = true → Failed calls
  null : ∀ call, calls.getLast? = some call → call.answer = .null →
    pool.buffered call.taskIdx = [] ∧ (JustSentNone call ∨ Finished calls ∨ Failed calls)

section InOrderRuns

variable {cfg : InOrderConfig} {pool pool' : InOrderPool} {calls : List Call} {call : Call}

theorem Finished.of_singleton (h : Finished [call]) (calls : List Call) : Finished (calls ++ [call]) := by
  obtain ⟨c, hc, hfinished⟩ := h
  exact ⟨c, List.mem_append_right _ hc, hfinished⟩

theorem Failed.of_singleton (h : Failed [call]) (calls : List Call) : Failed (calls ++ [call]) := by
  obtain ⟨c, hc, hfailed⟩ := h
  exact ⟨c, List.mem_append_right _ hc, hfailed⟩

theorem receivedOf_append (calls : List Call) (call : Call) (i : ℕ) :
    receivedOf (calls ++ [call]) i = receivedOf calls i ++ [(call.received.getD i {}).ranges] := by
  simp only [receivedOf, List.map_append, List.map_cons, List.map_nil]

theorem InOrderReplies.left (h : InOrderReplies cfg (calls ++ [call])) : InOrderReplies cfg calls := by
  refine ⟨fun c hc => h.size c (List.mem_append_left _ hc), fun c hc => h.finish c (List.mem_append_left _ hc), fun i => ?_⟩
  have hsorted := h.continues i
  rw [receivedOf_append, allRanges_append] at hsorted
  have hsublist := @sublist_joined_left _ cfg.mode (allRanges cfg.mode (receivedOf calls i))
    (allRanges cfg.mode [(call.received.getD i {}).ranges])
  exact ⟨fun range hrange => hsorted.nonempty range (hsublist.subset hrange), hsorted.sorted.sublist hsublist⟩

theorem InOrderReplies.nonEmpty (h : InOrderReplies cfg (calls ++ [call])) : ∀ desc ∈ call.received, NonEmpty desc.ranges := by
  intro desc hdesc range hrange
  obtain ⟨i, hi⟩ := List.getElem?_of_mem hdesc
  refine (h.continues i).nonempty range ?_
  rw [receivedOf_append, allRanges_append, mem_joined, allRanges_singleton, List.getD_eq_getElem?_getD, hi]
  exact Or.inr hrange

theorem InOrderInv.append (h : InOrderInv cfg calls pool) (hstep : InOrderStep cfg pool call pool') :
    InOrderInv cfg (calls ++ [call]) pool' := by
  have hfinished : pool'.noMoreTasks = true → Finished (calls ++ [call]) := fun hfin =>
    (hstep.finished hfin).elim (fun hold => (h.finished hold).append call) fun hnew => hnew.of_singleton calls
  have hfailed : pool'.failedToGetTask = true → Failed (calls ++ [call]) := fun hfail =>
    (hstep.failed hfail).elim (fun hold => (h.failed hold).append call) fun hnew => hnew.of_singleton calls
  refine ⟨hstep.buffer, fun i => ?_, fun i ranges hranges => ?_, hfinished, hfailed, fun c hc hnull => ?_⟩
  · rw [tasksOf_append, receivedOf_append, allRanges_append, allRanges_append, allRanges_singleton, marks_joined, marks_joined,
      joined_assoc, hstep.balance, ← joined_assoc, h.balance]
  · rw [tasksOf_append, List.mem_append] at hranges
    exact hranges.elim (h.tasks i ranges) (hstep.tasks i ranges)
  · obtain rfl : call = c := by
      rw [List.getLast?_concat] at hc
      exact Option.some.inj hc
    obtain ⟨hempty, hreason⟩ := hstep.null hnull
    exact ⟨hempty, hreason.imp_right (Or.imp hfinished hfailed)⟩

theorem inOrderInv_make (hmin : 0 < cfg.minMarksPerTask) : ∃ pool, cfg.make = .ok pool ∧ InOrderInv cfg [] pool ∧
    pool.bufferedTasks = cfg.parts.map (fun part => { info := part.partInfo, projectionName := part.projectionName }) ∧
    pool.perPartMarksInRange = List.replicate cfg.parts.length 1 ∧ pool.noMoreTasks = false ∧ pool.failedToGetTask = false := by
  have hranges : ∀ i, ((cfg.parts.map fun part => ({ info := part.partInfo, projectionName := part.projectionName } :
      RangesInDataPartDescription)).getD i {}).ranges = [] := fun i => by
    rw [List.getD_eq_getElem?_getD, List.getElem?_map]
    cases cfg.parts[i]? <;> rfl
  refine ⟨_, if_neg hmin.ne', ⟨⟨?_, List.length_replicate, ?_, ?_⟩, fun i => ?_, fun _ => nofun, nofun, nofun, nofun⟩, rfl, rfl, rfl, rfl⟩
  · rw [List.map_map]
    rfl
  · intro m hm
    rw [(List.mem_replicate.1 hm).2]
    exact Nat.one_pos
  · intro desc hdesc
    obtain ⟨part, -, rfl⟩ := List.mem_map.1 hdesc
    exact nonEmpty_nil
  · simp only [InOrderPool.buffered, hranges, receivedOf, tasksOf, List.flatMap_nil, List.map_nil, allRanges_nil]
    exact joined_nil_left _

/-- **A run of the pool in order.** -/
theorem InOrderInv.run (h : InOrderInv cfg [] pool) (hkeys : (cfg.parts.map Part.key).Nodup)
    (hmax : cfg.mode = .withOrder ∨ 0 < cfg.maxMarksInRange) (requests : List (ℕ × Reply))
    (hreplies : InOrderReplies cfg (ParallelReplicas.run (getTaskInOrder cfg) pool requests).1) :
    InOrderInv cfg (ParallelReplicas.run (getTaskInOrder cfg) pool requests).1
      (ParallelReplicas.run (getTaskInOrder cfg) pool requests).2 := by
  induction requests using List.reverseRecOn with
  | nil => exact h
  | append_singleton requests request ih =>
    rw [run_append] at hreplies ⊢
    have hinv := ih hreplies.left
    have hlast := List.mem_append_right (ParallelReplicas.run (getTaskInOrder cfg) pool requests).1
      (List.mem_singleton_self (getTaskInOrder cfg (ParallelReplicas.run (getTaskInOrder cfg) pool requests).2 request.1 request.2).1)
    exact hinv.append (inOrderStep_getTask hinv.buffer hkeys hmax request.1 request.2 (hreplies.size _ hlast)
      (hreplies.finish _ hlast) hreplies.nonEmpty)

theorem flatten_marks (lists : List MarkRanges) : MarkRanges.marks lists.flatten = lists.flatMap MarkRanges.marks := by
  induction lists with
  | nil => rfl
  | cons ranges rest ih => rw [List.flatten_cons, marks_append, ih, List.flatMap_cons]

theorem InOrderInv.keeps (h : InOrderInv cfg calls pool) (hreplies : InOrderReplies cfg calls) : KeepsInOrder cfg calls pool := by
  -- the marks of the tasks are in order in the direction of reading
  have hordered : ∀ i, ((allRanges cfg.mode (tasksOf calls i)).marks).Pairwise (· < ·) := fun i => by
    have hreceived := (hreplies.continues i).sortedDisjoint.pairwise_marks
    rw [← h.balance i] at hreceived
    exact hreceived.sublist (sublist_joined_left _ _)
  have hforward : cfg.mode = .withOrder → ∀ i, ((tasksOf calls i).flatMap MarkRanges.marks).Pairwise (· < ·) := fun hmode i => by
    have hpairwise := hordered i
    rwa [allRanges, if_pos hmode, flatten_marks] at hpairwise
  have hbackward : cfg.mode ≠ .withOrder → ∀ i, ((tasksOf calls i).reverse.flatMap MarkRanges.marks).Pairwise (· < ·) :=
    fun hmode i => by
      have hpairwise := hordered i
      rwa [allRanges, if_neg hmode, flatten_marks] at hpairwise
  refine ⟨h.balance, fun i ranges hranges => ?_, fun i => ?_, hforward, fun hmode i => ?_, h.null⟩
  · obtain ⟨hne, hnonempty⟩ := h.tasks i ranges hranges
    exact hnonempty.marks_ne_nil hne
  · by_cases hmode : cfg.mode = .withOrder
    · exact (hforward hmode i).imp fun hlt => Nat.ne_of_lt hlt
    · have hnodup : ((tasksOf calls i).reverse.flatMap MarkRanges.marks).Nodup := (hbackward hmode i).imp fun hlt => Nat.ne_of_lt hlt
      exact ((List.reverse_perm _).flatMap_right MarkRanges.marks).nodup_iff.1 hnodup
  · have hpairwise := (List.pairwise_flatMap.1 (hbackward hmode i)).2
    rw [List.pairwise_reverse] at hpairwise
    exact hpairwise

end InOrderRuns

/-! ## A block size that overflows -/

section Overflow

variable {cfg : InOrderConfig}

theorem maxMarksInRange_pos (hblock : 1 ≤ cfg.maxBlockSizeRows.toNat) (hgranularity : 1 ≤ cfg.indexGranularity.toNat) :
    0 < cfg.maxMarksInRange ↔ cfg.maxBlockSizeRows.toNat + cfg.indexGranularity.toNat ≤ 2 ^ 64 := by
  have hblockLt := cfg.maxBlockSizeRows.toNat_lt
  have hgranularityLt := cfg.indexGranularity.toNat_lt
  unfold InOrderConfig.maxMarksInRange
  rw [UInt64.toNat_div, UInt64.toNat_sub, UInt64.toNat_add, Nat.div_pos_iff]
  have hone : (1 : UInt64).toNat = 1 := rfl
  rw [hone]
  omega

/-- A response with one range of two marks for the first part. -/
def twoMarks (cfg : InOrderConfig) : ParallelReadResponse :=
  { description := { ranges := [⟨0, 2⟩] } :: List.replicate (cfg.parts.length - 1) {} }

/-- The first part wants two tasks. -/
def twoCalls (cfg : InOrderConfig) : List (ℕ × Reply) := [(0, .response (twoMarks cfg)), (0, .response (twoMarks cfg))]

theorem received_twoMarks (i : ℕ) : ((twoMarks cfg).description.getD i {}).ranges = if i = 0 then [⟨0, 2⟩] else [] := by
  unfold twoMarks
  cases i with
  | zero => rfl
  | succ i =>
    rw [List.getD_cons_succ, if_neg (Nat.succ_ne_zero i), List.getD_eq_getElem?_getD, List.getElem?_replicate]
    split_ifs <;> rfl

/-- One mark of the first part is left, and its next task is to have no marks. -/
def oneMarkLeft (part : Part) (others : RangesInDataPartsDescription) (counts : List ℕ) (pool : InOrderPool) : InOrderPool :=
  { pool with
    bufferedTasks := { info := part.partInfo, projectionName := part.projectionName, ranges := [⟨0, 1⟩] } :: others
    perPartMarksInRange := 0 :: counts }

/-- **In reverse order** with a block of zero marks the second task is empty. -/
theorem run_twoCalls (hmode : cfg.mode ≠ .withOrder) (hmax : cfg.maxMarksInRange = 0) (hparts : cfg.parts ≠ [])
    {pool : InOrderPool} (hbuffered : pool.bufferedTasks =
      cfg.parts.map fun part => { info := part.partInfo, projectionName := part.projectionName })
    (hcounts : pool.perPartMarksInRange = List.replicate cfg.parts.length 1) (hfinished : pool.noMoreTasks = false)
    (hfailed : pool.failedToGetTask = false) :
    (run (getTaskInOrder cfg) pool (twoCalls cfg)).1 =
      [⟨0, some (.response (twoMarks cfg)), .task 0 [⟨1, 2⟩]⟩, ⟨0, none, .task 0 [⟨1, 1⟩]⟩] := by
  obtain ⟨part, rest, hcons⟩ := List.exists_cons_of_ne_nil hparts
  have hempty : ∀ {buffered : RangesInDataPartsDescription} {m : ℕ}, (∀ desc ∈ buffered, desc.ranges = []) →
      cutBuffer cfg part m buffered = none := by
    intro buffered m h
    induction buffered with
    | nil => rfl
    | cons desc others ih =>
      unfold cutBuffer
      rw [if_neg fun hmatch => hmatch.2.2 (h desc List.mem_cons_self), ih fun d hd => h d (List.mem_cons_of_mem _ hd)]
      rfl
  have hnone : getFromBuffer cfg part 0 pool = none := by
    unfold getFromBuffer
    rw [hbuffered, hempty]
    · rfl
    · intro desc hdesc
      obtain ⟨p, -, rfl⟩ := List.mem_map.1 hdesc
      rfl
  have hdescription : ¬((twoMarks cfg).description = [] ∨ (twoMarks cfg).finish = true) := by simp [twoMarks]
  have hfirst : cfg.parts[0]? = some part := by rw [hcons, List.getElem?_cons_zero]
  set others := fillBuffer cfg.mode (rest.map fun part => { info := part.partInfo, projectionName := part.projectionName })
    (List.replicate (cfg.parts.length - 1) {}) with hothers
  have hfilled : getFromBuffer cfg part 0 { pool with bufferedTasks := fillBuffer cfg.mode pool.bufferedTasks (twoMarks cfg).description } =
      some ([⟨1, 2⟩], oneMarkLeft part others (List.replicate rest.length 1) pool) := by
    simp [getFromBuffer, hbuffered, hcounts, hcons, twoMarks, fillBuffer, hmode, cutBuffer, cutRanges, takeBack, hmax, List.replicate_succ,
      oneMarkLeft, hothers]
  have hcut : ∀ others counts, getFromBuffer cfg part 0 (oneMarkLeft part others counts pool) =
      some ([⟨1, 1⟩], oneMarkLeft part others counts pool) := by
    intro others counts
    simp [getFromBuffer, hmode, cutBuffer, cutRanges, takeBack, hmax, oneMarkLeft]
  have hcall : getTaskInOrder cfg pool 0 (.response (twoMarks cfg)) =
      (⟨0, some (.response (twoMarks cfg)), .task 0 [⟨1, 2⟩]⟩, oneMarkLeft part others (List.replicate rest.length 1) pool) := by
    simp only [getTaskInOrder, hfirst, hnone, hfinished, hfailed, Bool.false_eq_true, if_false, hdescription] at hfilled ⊢
    rw [hfilled]
  have hcall' : (getTaskInOrder cfg (oneMarkLeft part others (List.replicate rest.length 1) pool) 0 (.response (twoMarks cfg))).1 =
      ⟨0, none, .task 0 [⟨1, 1⟩]⟩ := by
    simp only [getTaskInOrder, hfirst, hcut]
  simp only [run, twoCalls, List.foldl_cons, List.foldl_nil, hcall, hcall', List.nil_append, List.singleton_append]

theorem inOrderReplies_twoCalls (hmode : cfg.mode ≠ .withOrder) (hparts : cfg.parts ≠ []) {answer answer' : Answer} :
    InOrderReplies cfg [⟨0, some (.response (twoMarks cfg)), answer⟩, ⟨0, none, answer'⟩] := by
  have hpos := List.length_pos_of_ne_nil hparts
  refine ⟨fun call hcall => ?_, fun call hcall response hasked hfinish => ?_, fun i => ?_⟩
  · rcases List.mem_cons.1 hcall with rfl | hcall
    · right
      simp only [Call.received, twoMarks, List.length_cons, List.length_replicate]
      omega
    · rw [List.mem_singleton.1 hcall]
      exact Or.inl rfl
  · rcases List.mem_cons.1 hcall with rfl | hcall
    · obtain rfl : twoMarks cfg = response := Reply.response.inj (Option.some.inj hasked)
      cases hfinish
    · rw [List.mem_singleton.1 hcall] at hasked
      cases hasked
  · have hreceived : receivedOf [⟨0, some (.response (twoMarks cfg)), answer⟩, ⟨0, none, answer'⟩] i =
        [if i = 0 then [⟨0, 2⟩] else [], []] := by
      simp only [receivedOf, List.map_cons, List.map_nil, Call.received, received_twoMarks]
      rfl
    rw [hreceived, allRanges, if_neg hmode]
    split_ifs
    · exact ⟨by simp, by simp⟩
    · exact ⟨nofun, .nil⟩

end Overflow

/-! ## The pool without order -/

/-- The ranges of a part among descriptions. -/
def rangesOf (key : Key) (descriptions : RangesInDataPartsDescription) : MarkRanges :=
  descriptions.flatMap fun desc => if keyOf desc = key then desc.ranges else []

/-- The parts of a pool: each one once, and none both itself and through a projection. -/
structure PartsOK (parts : List Part) : Prop where
  keys : (parts.map Part.key).Nodup
  projections : ∀ part ∈ parts, ∀ projection ∈ parts, part.parentInfo = none →
    ∀ parentInfo, projection.parentInfo = some parentInfo → part.info.toTuple ≠ parentInfo.toTuple

/-- A known part with ranges that are not empty, and a positive number of marks for a task. -/
structure Known (parts : List Part) (desc : RangesInDataPartDescription) : Prop where
  known : ∃ part ∈ parts, part.key = keyOf desc ∧ 0 < effectiveMinMarksPerTask part desc
  ranges_ne : desc.ranges ≠ []
  nonempty : NonEmpty desc.ranges

/-- What the coordinator may send in the default mode. -/
structure DefaultReplies (parts : List Part) (calls : List Call) : Prop where
  known : ∀ call ∈ calls, ∀ desc ∈ call.received, Known parts desc
  finish : ∀ call ∈ calls, ∀ response, call.asked = some (.response response) → response.finish = true → response.description = []

/-- Nothing that the pool received is lost, after some calls. -/
structure KeepsDefault (parts : List Part) (calls : List Call) (pool : DefaultPool) : Prop where
  balance : ∀ i part, parts[i]? = some part →
    (tasksOf calls i).flatMap MarkRanges.marks ++ (rangesOf part.key pool.bufferedRanges).marks =
      (rangesOf part.key (calls.flatMap Call.received)).marks
  nonempty : ∀ i, ∀ ranges ∈ tasksOf calls i, ranges.marks ≠ []
  once : ∀ i part, parts[i]? = some part → (rangesOf part.key (calls.flatMap Call.received)).marks.Nodup →
    ((tasksOf calls i).flatMap MarkRanges.marks).Nodup
  exceptions : ∀ call ∈ calls, ∀ message, call.answer = .exception message → call.asked = some (.exception message)

section Default

variable {parts : List Part} {pool : DefaultPool} {calls : List Call} {ranges : MarkRanges} {desc : RangesInDataPartDescription}

theorem takeRanges_spec : ∀ {ranges : MarkRanges} {minMarks : ℕ}, NonEmpty ranges →
    (takeRanges minMarks ranges).1.marks ++ (takeRanges minMarks ranges).2.marks = ranges.marks ∧
      NonEmpty (takeRanges minMarks ranges).1 ∧ NonEmpty (takeRanges minMarks ranges).2 ∧
      (ranges ≠ [] → 0 < minMarks → (takeRanges minMarks ranges).1 ≠ []) := by
  intro ranges
  induction ranges with
  | nil =>
    intro minMarks _
    cases minMarks <;> exact ⟨rfl, nonEmpty_nil, nonEmpty_nil, fun hne => absurd rfl hne⟩
  | cons range rest ih =>
    intro minMarks h
    obtain ⟨hrange, hrest⟩ := nonEmpty_cons.1 h
    have hmarks : range.getNumberOfMarks = range.endMark - range.beginMark := if_pos hrange.le
    cases minMarks with
    | zero => exact ⟨rfl, nonEmpty_nil, h, fun _ hpos => absurd hpos (Nat.lt_irrefl 0)⟩
    | succ diff =>
      unfold takeRanges
      by_cases hlt : diff + 1 < range.getNumberOfMarks
      · rw [if_pos hlt]
        rw [hmarks] at hlt
        refine ⟨?_, nonEmpty_cons.2 ⟨by dsimp only; omega, nonEmpty_nil⟩, nonEmpty_cons.2 ⟨by dsimp only; omega, hrest⟩,
          fun _ _ => List.cons_ne_nil _ _⟩
        have hsplit := @marks_split range.beginMark (range.beginMark + (diff + 1)) range.endMark (by omega) (by omega)
        simp only [MarkRanges.marks_cons, show MarkRanges.marks [] = [] from rfl, List.append_nil]
        rw [← List.append_assoc, hsplit]
      · rw [if_neg hlt]
        obtain ⟨hsum, htaken, hleft, -⟩ := @ih (diff + 1 - range.getNumberOfMarks) hrest
        refine ⟨?_, nonEmpty_cons.2 ⟨hrange, htaken⟩, hleft, fun _ _ => List.cons_ne_nil _ _⟩
        rw [MarkRanges.marks_cons, MarkRanges.marks_cons, List.append_assoc, hsum]

@[simp] theorem rangesOf_nil (key : Key) : rangesOf key [] = [] := rfl

theorem rangesOf_cons (key : Key) (desc : RangesInDataPartDescription) (rest : RangesInDataPartsDescription) :
    rangesOf key (desc :: rest) = (if keyOf desc = key then desc.ranges else []) ++ rangesOf key rest := List.flatMap_cons

theorem rangesOf_append (key : Key) (a b : RangesInDataPartsDescription) : rangesOf key (a ++ b) = rangesOf key a ++ rangesOf key b :=
  List.flatMap_append

theorem PartsOK.exists_find (h : PartsOK parts) (hdesc : Known parts desc) :
    ∃ part partIdx, parts.zipIdx.find? (fun part => part.1.matches desc) = some (part, partIdx) ∧ parts[partIdx]? = some part ∧
      part.key = keyOf desc ∧ 0 < effectiveMinMarksPerTask part desc := by
  obtain ⟨known, hknown, hkey, hpos⟩ := hdesc.known
  obtain ⟨hinfo, hname⟩ := Prod.mk.inj hkey
  -- the part matches its own description
  have hmatches : known.matches desc = true := by
    unfold Part.matches
    cases hparent : known.parentInfo with
    | none =>
      simp only [Part.partInfo, hparent, Option.getD_none] at hinfo
      exact decide_eq_true hinfo
    | some parentInfo =>
      simp only [Part.partInfo, Part.projectionName, Part.isProjectionPart, hparent, Option.getD_some, Option.isSome_some,
        if_true] at hinfo hname
      simp [hinfo, hname]
  obtain ⟨i, hi⟩ := List.getElem?_of_mem hknown
  have hmem : (known, i) ∈ parts.zipIdx := List.mem_zipIdx_iff_getElem?.2 hi
  cases hfind : parts.zipIdx.find? fun part => part.1.matches desc with
  | none => exact absurd hmatches (by simpa using List.find?_eq_none.1 hfind _ hmem)
  | some found =>
    have hget : parts[found.2]? = some found.1 := List.mem_zipIdx_iff_getElem?.1 (List.mem_of_find?_eq_some hfind)
    have hfound : found.1.matches desc = true := by simpa using List.find?_some hfind
    have hsame : found.1.key = keyOf desc := by
      unfold Part.matches at hfound
      cases hparent : found.1.parentInfo with
      | some parentInfo =>
        simp only [hparent, Bool.and_eq_true, decide_eq_true_eq] at hfound
        simp [Part.key, keyOf, Part.partInfo, Part.projectionName, Part.isProjectionPart, hparent, hfound.1, hfound.2]
      | none =>
        simp only [hparent, decide_eq_true_eq] at hfound
        -- the description is not one of a projection of this part
        have hplain : known.parentInfo = none := by
          cases hknownParent : known.parentInfo with
          | none => rfl
          | some parentInfo =>
            simp only [Part.partInfo, hknownParent, Option.getD_some] at hinfo
            exact absurd (hfound.trans hinfo.symm) (h.projections found.1 (List.mem_of_getElem? hget) known hknown hparent _ hknownParent)
        simp only [Part.projectionName, Part.isProjectionPart, hplain, Option.isSome_none, Bool.false_eq_true, if_false] at hname
        simp [Part.key, keyOf, Part.partInfo, Part.projectionName, Part.isProjectionPart, hparent, hfound, ← hname]
    have hpart : found.1 = known :=
      List.inj_on_of_nodup_map h.keys (List.mem_of_getElem? hget) hknown (hsame.trans hkey.symm)
    exact ⟨found.1, found.2, rfl, hget, hsame, hpart ▸ hpos⟩

/-- A call of `getTask`: what it takes and what it leaves is what was there and what it received. -/
structure DefaultStep (parts : List Part) (pool : DefaultPool) (call : Call) (pool' : DefaultPool) : Prop where
  buffer : ∀ desc ∈ pool'.bufferedRanges, Known parts desc
  balance : ∀ i part, parts[i]? = some part →
    (call.tasks i).flatMap MarkRanges.marks ++ (rangesOf part.key pool'.bufferedRanges).marks =
      (rangesOf part.key (pool.bufferedRanges ++ call.received)).marks
  tasks : ∀ i, ∀ ranges ∈ call.tasks i, ranges.marks ≠ []
  exceptions : ∀ message, call.answer = .exception message → call.asked = some (.exception message)

theorem defaultStep_of_none {pool' : DefaultPool} {call : Call} (hknown : ∀ desc ∈ pool.bufferedRanges, Known parts desc)
    (hsame : pool'.bufferedRanges = pool.bufferedRanges) (htasks : ∀ i, call.tasks i = []) (hreceived : call.received = [])
    (hexceptions : ∀ message, call.answer = .exception message → call.asked = some (.exception message)) :
    DefaultStep parts pool call pool' := by
  refine ⟨hsame ▸ hknown, fun i part _ => ?_, fun i => ?_, hexceptions⟩
  · rw [htasks, hreceived, hsame, List.append_nil]
    rfl
  · rw [htasks]
    nofun

/-- **A task from the front of the buffer.** -/
theorem PartsOK.takeTask (h : PartsOK parts) {pool₁ : DefaultPool} (hknown : ∀ desc ∈ pool₁.bufferedRanges, Known parts desc)
    (hne : pool₁.bufferedRanges ≠ []) {i : ℕ} {asked : Option Reply}
    (hreceived : pool₁.bufferedRanges = pool.bufferedRanges ++ Call.received ⟨i, asked, (takeTask parts pool₁).1⟩) :
    DefaultStep parts pool ⟨i, asked, (takeTask parts pool₁).1⟩ (takeTask parts pool₁).2 := by
  obtain ⟨desc, rest, hcons⟩ := List.exists_cons_of_ne_nil hne
  have hdesc : Known parts desc := hknown desc (hcons ▸ List.mem_cons_self)
  obtain ⟨part, partIdx, hfind, hget, hkey, hpos⟩ := h.exists_find hdesc
  obtain ⟨hmarks, htaken, hleft, htaken_ne⟩ := @takeRanges_spec desc.ranges (effectiveMinMarksPerTask part desc) hdesc.nonempty
  generalize hcut : takeRanges (effectiveMinMarksPerTask part desc) desc.ranges = cut at hmarks htaken hleft htaken_ne
  have htask : ParallelReplicas.takeTask parts pool₁ = (.task partIdx cut.1,
      { pool₁ with bufferedRanges := if cut.2 = [] then rest else { desc with ranges := cut.2 } :: rest }) := by
    unfold ParallelReplicas.takeTask
    simp only [hcons, hfind, hcut]
  rw [htask] at hreceived ⊢
  have hself : Call.tasks ⟨i, asked, .task partIdx cut.1⟩ partIdx = [cut.1] := if_pos rfl
  have hnone : ∀ j, j ≠ partIdx → Call.tasks ⟨i, asked, .task partIdx cut.1⟩ j = [] := fun j hj => if_neg (Ne.symm hj)
  -- what is left of the description
  have hrest : ∀ key, rangesOf key (if cut.2 = [] then rest else { desc with ranges := cut.2 } :: rest) =
      (if keyOf desc = key then cut.2 else []) ++ rangesOf key rest := fun key => by
    by_cases hempty : cut.2 = []
    · rw [if_pos hempty, hempty, ite_self, List.nil_append]
    · rw [if_neg hempty, rangesOf_cons]
      rfl
  refine ⟨fun d hd => ?_, fun j p hp => ?_, fun j => ?_, nofun⟩
  · dsimp only at hd
    split_ifs at hd with hempty
    · exact hknown d (hcons ▸ List.mem_cons_of_mem _ hd)
    · rcases List.mem_cons.1 hd with rfl | hd
      · exact ⟨hdesc.known, hempty, hleft⟩
      · exact hknown d (hcons ▸ List.mem_cons_of_mem _ hd)
  · rw [← hreceived, hcons, rangesOf_cons]
    dsimp only
    rw [hrest, marks_append, marks_append]
    by_cases hj : j = partIdx
    · subst hj
      obtain rfl : part = p := Option.some.inj (hget.symm.trans hp)
      rw [hself, if_pos hkey.symm, if_pos hkey.symm, List.flatMap_singleton, ← List.append_assoc, hmarks]
    · have hother : keyOf desc ≠ p.key := fun heq => hj <| by
        have hmap : (parts.map Part.key)[j]? = (parts.map Part.key)[partIdx]? := by
          rw [List.getElem?_map, List.getElem?_map, hp, hget, Option.map_some, Option.map_some, hkey, heq]
        exact List.getElem?_inj (by rw [List.length_map]; exact (List.getElem?_eq_some_iff.1 hp).1) h.keys |>.1 hmap
      rw [hnone j hj, if_neg hother, if_neg hother]
      rfl
  · by_cases hj : j = partIdx
    · rw [hj, hself]
      intro ranges hranges
      rw [List.mem_singleton.1 hranges]
      exact htaken.marks_ne_nil (htaken_ne hdesc.ranges_ne hpos)
    · rw [hnone j hj]
      nofun

/-- **One call of `getTask`** of the pool without order. -/
theorem PartsOK.getTask (h : PartsOK parts) (hknown : ∀ desc ∈ pool.bufferedRanges, Known parts desc) (i : ℕ) (reply : Reply)
    (hreceived : ∀ desc ∈ (getTaskDefault parts pool i reply).1.received, Known parts desc)
    (hfinish : ∀ response, (getTaskDefault parts pool i reply).1.asked = some (.response response) → response.finish = true →
      response.description = []) :
    DefaultStep parts pool (getTaskDefault parts pool i reply).1 (getTaskDefault parts pool i reply).2 := by
  unfold getTaskDefault at hreceived hfinish ⊢
  by_cases hfin : pool.noMoreTasksAvailable = true
  · rw [if_pos hfin]
    exact defaultStep_of_none hknown rfl (fun _ => rfl) rfl nofun
  rw [if_neg hfin] at hreceived hfinish ⊢
  by_cases hfail : pool.failedToGetTask = true
  · rw [if_pos hfail]
    exact defaultStep_of_none hknown rfl (fun _ => rfl) rfl nofun
  rw [if_neg hfail] at hreceived hfinish ⊢
  by_cases hempty : pool.bufferedRanges = []
  · rw [if_pos hempty] at hreceived hfinish ⊢
    cases reply with
    | exception message => exact defaultStep_of_none hknown rfl (fun _ => rfl) rfl fun message heq => congrArg _ (congrArg _ (Answer.exception.inj heq))
    | noResponse => exact defaultStep_of_none hknown rfl (fun _ => rfl) rfl nofun
    | response response =>
      dsimp only at hreceived hfinish ⊢
      by_cases hdone : response.description = [] ∨ response.finish = true
      · rw [if_pos hdone] at hfinish ⊢
        have hnil : response.description = [] := hdone.elim id fun hfinished => hfinish response rfl hfinished
        exact defaultStep_of_none hknown rfl (fun _ => rfl) hnil nofun
      · rw [if_neg hdone] at hreceived ⊢
        obtain ⟨hnil, -⟩ := not_or.1 hdone
        refine h.takeTask hreceived hnil ?_
        rw [hempty, List.nil_append]
        rfl
  · rw [if_neg hempty]
    exact h.takeTask hknown hempty (List.append_nil _).symm

/-- What holds after some calls. -/
structure DefaultInv (parts : List Part) (calls : List Call) (pool : DefaultPool) : Prop where
  buffer : ∀ desc ∈ pool.bufferedRanges, Known parts desc
  balance : ∀ i part, parts[i]? = some part →
    (tasksOf calls i).flatMap MarkRanges.marks ++ (rangesOf part.key pool.bufferedRanges).marks =
      (rangesOf part.key (calls.flatMap Call.received)).marks
  tasks : ∀ i, ∀ ranges ∈ tasksOf calls i, ranges.marks ≠ []
  exceptions : ∀ call ∈ calls, ∀ message, call.answer = .exception message → call.asked = some (.exception message)

theorem DefaultInv.append {pool' : DefaultPool} {call : Call} (h : DefaultInv parts calls pool)
    (hstep : DefaultStep parts pool call pool') : DefaultInv parts (calls ++ [call]) pool' := by
  refine ⟨hstep.buffer, fun i part hpart => ?_, fun i ranges hranges => ?_, fun c hc => ?_⟩
  · rw [tasksOf_append, List.flatMap_append, List.append_assoc, hstep.balance i part hpart, rangesOf_append, marks_append,
      ← List.append_assoc, h.balance i part hpart, List.flatMap_append, List.flatMap_singleton, rangesOf_append, marks_append]
  · rw [tasksOf_append, List.mem_append] at hranges
    exact hranges.elim (h.tasks i ranges) (hstep.tasks i ranges)
  · rcases List.mem_append.1 hc with hc | hc
    · exact h.exceptions c hc
    · rw [List.mem_singleton.1 hc]
      exact hstep.exceptions

/-- **A run of the pool without order.** -/
theorem PartsOK.run (h : PartsOK parts) (requests : List (ℕ × Reply))
    (hreplies : DefaultReplies parts (ParallelReplicas.run (getTaskDefault parts) {} requests).1) :
    DefaultInv parts (ParallelReplicas.run (getTaskDefault parts) {} requests).1
      (ParallelReplicas.run (getTaskDefault parts) {} requests).2 := by
  induction requests using List.reverseRecOn with
  | nil => exact ⟨nofun, fun _ _ _ => rfl, fun _ => nofun, nofun⟩
  | append_singleton requests request ih =>
    rw [run_append] at hreplies ⊢
    have hlast := List.mem_append_right (ParallelReplicas.run (getTaskDefault parts) {} requests).1
      (List.mem_singleton_self (getTaskDefault parts (ParallelReplicas.run (getTaskDefault parts) {} requests).2 request.1 request.2).1)
    have hinv := ih ⟨fun call hcall => hreplies.known call (List.mem_append_left _ hcall),
      fun call hcall => hreplies.finish call (List.mem_append_left _ hcall)⟩
    exact hinv.append (h.getTask hinv.buffer request.1 request.2 (hreplies.known _ hlast) (hreplies.finish _ hlast))

theorem DefaultInv.keeps (h : DefaultInv parts calls pool) : KeepsDefault parts calls pool :=
  ⟨h.balance, h.tasks, fun i part hpart hnodup => by
    rw [← h.balance i part hpart] at hnodup
    exact hnodup.sublist (List.sublist_append_left _ _), h.exceptions⟩

end Default

/-! ## Both pools -/

/-- **Nothing is lost.** The pool without order keeps what it receives in every run, and the pool in order does
so just when reading is forward or the two settings of the block size do not overflow. -/
theorem getTask_losesNothing_iff {cfg : InOrderConfig} (hkeys : (cfg.parts.map Part.key).Nodup) (hparts : cfg.parts ≠ [])
    (hmin : 0 < cfg.minMarksPerTask) (hblock : 1 ≤ cfg.maxBlockSizeRows.toNat) (hgranularity : 1 ≤ cfg.indexGranularity.toNat) :
    (∃ pool, cfg.make = .ok pool ∧
      ((∀ requests : List (ℕ × Reply), InOrderReplies cfg (run (getTaskInOrder cfg) pool requests).1 →
          KeepsInOrder cfg (run (getTaskInOrder cfg) pool requests).1 (run (getTaskInOrder cfg) pool requests).2) ↔
        cfg.mode = .withOrder ∨ cfg.maxBlockSizeRows.toNat + cfg.indexGranularity.toNat ≤ 2 ^ 64)) ∧
      ∀ parts : List Part, PartsOK parts → ∀ requests : List (ℕ × Reply),
        DefaultReplies parts (run (getTaskDefault parts) {} requests).1 →
          KeepsDefault parts (run (getTaskDefault parts) {} requests).1 (run (getTaskDefault parts) {} requests).2 := by
  refine ⟨?_, fun parts h requests hreplies => (h.run requests hreplies).keeps⟩
  obtain ⟨pool, hmake, hinv, hbuffered, hcounts, hfinished, hfailed⟩ := inOrderInv_make hmin
  refine ⟨pool, hmake, fun hkeeps => ?_, fun hcondition requests hreplies => ?_⟩
  · by_contra hcondition
    obtain ⟨hmode, hsum⟩ := not_or.1 hcondition
    have hmax : cfg.maxMarksInRange = 0 := Nat.eq_zero_of_not_pos fun hpos => hsum ((maxMarksInRange_pos hblock hgranularity).1 hpos)
    have hrun := run_twoCalls hmode hmax hparts hbuffered hcounts hfinished hfailed
    have hempty := (hkeeps (twoCalls cfg) (by rw [hrun]; exact inOrderReplies_twoCalls hmode hparts)).nonempty 0
    rw [hrun] at hempty
    exact hempty [⟨1, 1⟩] (by simp [tasksOf, Call.tasks]) rfl
  · have hmax : cfg.mode = .withOrder ∨ 0 < cfg.maxMarksInRange :=
      hcondition.imp_right (maxMarksInRange_pos hblock hgranularity).2
    exact (hinv.run hkeys hmax requests hreplies).keeps hreplies

namespace OnePart

/-- One part, read in reverse order. -/
def config (maxBlockSizeRows : UInt64) : InOrderConfig where
  parts := [⟨PartInfo.make "all" 1 1 0 0, "all_1_1_0", none, 1⟩]
  mode := .reverseOrder
  hasLimitBelowOneBlock := false
  minMarksForConcurrentRead := 1
  maxBlockSizeRows := maxBlockSizeRows
  indexGranularity := 8192

/-- Tasks of one, two, four marks and the rest, from the end. -/
example : (run (getTaskInOrder (config 65409)) ⟨[{ info := PartInfo.make "all" 1 1 0 0 }], [1], false, false⟩
    (List.replicate 4 (0, .response { description := [{ ranges := [⟨0, 8⟩] }] }))).1.map Call.answer =
    [.task 0 [⟨7, 8⟩], .task 0 [⟨5, 7⟩], .task 0 [⟨1, 5⟩], .task 0 [⟨0, 1⟩]] := by decide

/-- The greatest block size. -/
def hugeBlock : InOrderConfig := config 18446744073709551615

end OnePart

theorem getTask_losesNothing_iff_onePart : ∃ pool, (OnePart.config 65409).make = .ok pool ∧
    ∀ requests : List (ℕ × Reply), InOrderReplies (OnePart.config 65409) (run (getTaskInOrder (OnePart.config 65409)) pool requests).1 →
      KeepsInOrder (OnePart.config 65409) (run (getTaskInOrder (OnePart.config 65409)) pool requests).1
        (run (getTaskInOrder (OnePart.config 65409)) pool requests).2 := by
  obtain ⟨⟨pool, hmake, hiff⟩, -⟩ := @getTask_losesNothing_iff (OnePart.config 65409) (by decide) (List.cons_ne_nil _ _) (by decide)
    (by decide) (by decide)
  exact ⟨pool, hmake, hiff.2 (by decide)⟩

/-- The second task has no marks, and one mark stays in the buffer. -/
theorem getTask_emptyTask : ∃ pool, OnePart.hugeBlock.make = .ok pool ∧
    InOrderReplies OnePart.hugeBlock (run (getTaskInOrder OnePart.hugeBlock) pool (twoCalls OnePart.hugeBlock)).1 ∧
    ¬KeepsInOrder OnePart.hugeBlock (run (getTaskInOrder OnePart.hugeBlock) pool (twoCalls OnePart.hugeBlock)).1
      (run (getTaskInOrder OnePart.hugeBlock) pool (twoCalls OnePart.hugeBlock)).2 := by
  obtain ⟨pool, hmake, -, hbuffered, hcounts, hfinished, hfailed⟩ := @inOrderInv_make OnePart.hugeBlock (by decide)
  have hmode : OnePart.hugeBlock.mode ≠ .withOrder := by decide
  have hparts : OnePart.hugeBlock.parts ≠ [] := List.cons_ne_nil _ _
  have hrun := run_twoCalls hmode (by decide) hparts hbuffered hcounts hfinished hfailed
  refine ⟨pool, hmake, by rw [hrun]; exact inOrderReplies_twoCalls hmode hparts, fun hkeeps => ?_⟩
  have hempty := hkeeps.nonempty 0
  rw [hrun] at hempty
  exact hempty [⟨1, 1⟩] (by simp [tasksOf, Call.tasks]) rfl

end ParallelReplicas

end MergeTree
