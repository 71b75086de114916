import MergeTree.Spec.PatchPartsLock
import MergeTree.Lib.PlainText
import MergeTree.Proof.NumberText

/-!
# Updates in progress do not conflict

* `fromString_toString`: the columns of an update are read back from its node.
* `Inv`: what holds in every reachable state. The decisive part is about a remembered version: as
  long as it is the current one, every node that is there was in the list, and was read as it is.
* `noConflict_of_reachable`: two updates in progress do not conflict.
-/

namespace MergeTree

open IntText NumberText ColumnText TextReader

/-- **Quoted column names are read back**, in front of a newline. -/
class LawfulColumnText [ColumnText] : Prop extends LawfulNumberText where
  takes_backQuoted : ∀ (s : String) (rest : List Char),
    Takes readBackQuotedString (writeBackQuotedString s).toList s ("\n".toList ++ rest)

namespace UpdateAffectedColumns

/-- The sizes of the sets are values of `size_t`. -/
structure Sized (a : UpdateAffectedColumns) : Prop where
  used : a.used.names.length < 2 ^ 64
  updated : a.updated.names.length < 2 ^ 64

theorem hasConflict_comm (a b : UpdateAffectedColumns) : a.hasConflict b = b.hasConflict a := Bool.or_comm _ _

variable [ColumnText] [LawfulColumnText]

theorem takes_names (names : List String) (columns : NameSet) (h : (columns.names ++ names).Nodup)
    (rest : List Char) :
    Takes (readNames names.length columns)
      (names.flatMap fun column => (writeBackQuotedString column).toList ++ "\n".toList)
      ⟨columns.names ++ names, h⟩ rest := by
  induction names generalizing columns with
  | nil =>
    have hsame : (⟨columns.names ++ [], h⟩ : NameSet) = columns := by
      cases columns
      simp
    rw [hsame]
    exact Takes.pure columns rest
  | cons name names ih =>
    have hnew : name ∉ columns.names := by
      intro hmem
      exact (List.nodup_append.1 h).2.2 name hmem name List.mem_cons_self rfl
    have hinsert : (columns.insert name).names = columns.names ++ [name] := by
      unfold NameSet.insert
      rw [dif_neg hnew]
    have hnext : ((columns.insert name).names ++ names).Nodup := by
      rw [hinsert, List.append_assoc]
      exact h
    have hmore := ih (columns.insert name) hnext
    have hsame : (⟨(columns.insert name).names ++ names, hnext⟩ : NameSet) = ⟨columns.names ++ name :: names, h⟩ := by
      simp [hinsert]
    rw [hsame] at hmore
    rw [List.flatMap_cons, List.append_assoc]
    refine Takes.bind ?_ ((Takes.assertString "\n" _).bind hmore)
    rw [List.append_assoc]
    exact LawfulColumnText.takes_backQuoted name _

theorem takes_columns {columns : NameSet} (h : columns.names.length < 2 ^ 64) (suffix : String) (rest : List Char) :
    Takes (readColumns {} suffix) (writeColumns columns suffix).toList columns rest := by
  have hnames := takes_names columns.names {} (by simpa using columns.nodup) rest
  unfold writeColumns readColumns
  simp only [String.toList_append, String.toList_join, List.flatMap_map, List.append_assoc]
  refine Takes.bind (a := (columns.names.length : ℤ)) ?_ ((Takes.assertString " " _).bind ((Takes.assertString suffix _).bind
    ((Takes.assertString "\n" _).bind ?_)))
  · refine LawfulNumberText.takes_int _ _ _ (IntType.holds_uint64 h) ?_
    intro c hc
    have hspace : c = ' ' := by simpa using hc.symm
    rw [hspace]
    decide
  · rw [Int.toNat_natCast]
    simpa using hnames

/-- **The columns of an update are read back.** -/
theorem fromString_toString {a : UpdateAffectedColumns} (h : a.Sized) : fromString a.toString = .ok a := by
  have hversion : IntType.uint64.Holds (version : ℕ) := IntType.holds_uint64 (by decide)
  have hread : Takes (do
      assertString "format version: "
      let v ← readIntText .uint64
      assertString "\n"
      if v ≠ version then throw s!"Unknown version of affected columns serializaiton: {v}"
      else
        let used ← readColumns {} "used columns:"
        let updated ← readColumns {} "updated columns:"
        return { used, updated : UpdateAffectedColumns }) a.toString.toList a [] := by
    unfold toString
    simp only [String.toList_append, List.append_assoc]
    refine (Takes.assertString _ _).bind ?_
    refine Takes.bind (a := (version : ℤ)) ?_ ((Takes.assertString "\n" _).bind ?_)
    · refine LawfulNumberText.takes_int _ _ _ hversion ?_
      intro c hc
      have hnewline : c = '\n' := by simpa using hc.symm
      rw [hnewline]
      decide
    · rw [if_neg (not_not.2 rfl)]
      refine (takes_columns h.used _ _).bind ?_
      exact (takes_columns h.updated _ []).bind_pure
  unfold Takes at hread
  rw [List.append_nil] at hread
  unfold fromString
  dsimp only
  rw [hread]
  rfl

end UpdateAffectedColumns

namespace InProgress

variable {U : Type} {k : InProgress U}

/-- The numbers of the nodes come from the counter of Keeper. -/
structure Numbered (k : InProgress U) : Prop where
  lt : ∀ n ∈ k.nodes, n.id < k.nextId
  nodup : (k.nodes.map InProgressNode.id).Nodup

theorem Numbered.eq_of_id (h : k.Numbered) {n m : InProgressNode U} (hn : n ∈ k.nodes) (hm : m ∈ k.nodes)
    (hid : n.id = m.id) : n = m :=
  List.inj_on_of_nodup_map h.nodup hn hm hid

theorem Numbered.tryGet (h : k.Numbered) {n : InProgressNode U} (hn : n ∈ k.nodes) : k.tryGet n.id = some n.data := by
  unfold InProgress.tryGet
  cases hfind : k.nodes.find? fun m => m.id = n.id with
  | none =>
    have hnot := List.find?_eq_none.1 hfind n hn
    exact absurd (decide_eq_true rfl) hnot
  | some m =>
    have hid : m.id = n.id := by simpa using List.find?_some hfind
    rw [h.eq_of_id (List.mem_of_find?_eq_some hfind) hn hid]
    rfl

theorem Numbered.multi (h : k.Numbered) (u : U) (data : String) : (k.multi u data).Numbered := by
  refine ⟨?_, ?_⟩
  · intro n hn
    change n.id < k.nextId + 1
    rcases List.mem_append.1 hn with hn | hn
    · exact (h.lt n hn).trans (Nat.lt_succ_self _)
    · obtain rfl := List.mem_singleton.1 hn
      exact Nat.lt_succ_self _
  · have hnew : k.nextId ∉ k.nodes.map InProgressNode.id := by
      intro hmem
      obtain ⟨n, hn, hid⟩ := List.mem_map.1 hmem
      exact absurd (h.lt n hn) (by omega)
    change ((k.nodes ++ [_]).map InProgressNode.id).Nodup
    rw [List.map_append, List.map_singleton]
    exact List.nodup_append_comm.1 (List.nodup_cons.2 ⟨hnew, h.nodup⟩)

theorem Numbered.remove (h : k.Numbered) (id : ℕ) : (k.remove id).Numbered := by
  refine ⟨fun n hn => h.lt n (List.mem_of_mem_filter hn), ?_⟩
  exact h.nodup.sublist (List.filter_sublist.map _)

end InProgress

namespace LightweightUpdates

variable [ColumnText] {U : Type}

/-- The data of a node is read, and its update is not in the way. -/
def Unopposed (a : UpdateAffectedColumns) (data : String) : Prop :=
  ∃ c, UpdateAffectedColumns.fromString data = .ok c ∧ c.hasConflict a = false

theorem unopposed_of_contents {a : UpdateAffectedColumns} {contents : List (Option String)}
    (h : hasDependencyInProgress a contents = .ok false) : ∀ data, some data ∈ contents → Unopposed a data := by
  induction contents with
  | nil =>
    intro data hdata
    cases hdata
  | cons content contents ih =>
    intro data hdata
    cases content with
    | none => exact ih h data (by simpa using hdata)
    | some first =>
      unfold hasDependencyInProgress at h
      split at h
      · cases h
      · next c hc =>
        split at h
        · cases h
        · next hfree =>
          rcases List.mem_cons.1 hdata with hfirst | hrest
          · obtain rfl := Option.some.inj hfirst
            exact ⟨c, hc, by simpa using hfree⟩
          · exact ih h data hrest

/-- **What a call knows of Keeper**, as long as the version that it remembers is the current one:
every node was in its list and was read as it is. -/
def Sees (a : UpdateAffectedColumns) (k : InProgress U) : LockState → Prop
  | .reading _ v ids contents => v ≤ k.version ∧ (v = k.version →
      ∀ n ∈ k.nodes, n.id ∈ ids ∧ ∀ content, contents n.id = some content → content = some n.data)
  | .committing _ v => v ≤ k.version ∧ (v = k.version → ∀ n ∈ k.nodes, Unopposed a n.data)
  | _ => True

variable {a : UpdateAffectedColumns} {k : InProgress U} {state : LockState}

theorem sees_retry (numTry : ℕ) : Sees a k (retry numTry) := by
  unfold retry
  split <;> trivial

theorem Sees.multi (h : Sees a k state) (u : U) (data : String) : Sees a (k.multi u data) state := by
  cases state with
  | reading numTry v ids contents =>
    obtain ⟨hle, _⟩ := h
    refine ⟨Nat.le_succ_of_le hle, fun heq => ?_⟩
    change v = k.version + 1 at heq
    omega
  | committing numTry v =>
    obtain ⟨hle, _⟩ := h
    refine ⟨Nat.le_succ_of_le hle, fun heq => ?_⟩
    change v = k.version + 1 at heq
    omega
  | trying => trivial
  | locked => trivial
  | failed => trivial

theorem Sees.remove (h : Sees a k state) (id : ℕ) : Sees a (k.remove id) state := by
  cases state with
  | reading numTry v ids contents => exact ⟨h.1, fun heq n hn => h.2 heq n (List.mem_of_mem_filter hn)⟩
  | committing numTry v => exact ⟨h.1, fun heq n hn => h.2 heq n (List.mem_of_mem_filter hn)⟩
  | trying => trivial
  | locked => trivial
  | failed => trivial

theorem sees_getChildren (a : UpdateAffectedColumns) (k : InProgress U) (numTry : ℕ) :
    Sees a k (.reading numTry k.version (k.nodes.map InProgressNode.id) fun _ => none) :=
  ⟨le_rfl, fun _ _ hn => ⟨List.mem_map_of_mem hn, nofun⟩⟩

theorem Sees.tryGet {numTry v : ℕ} {ids : List ℕ} {contents : ℕ → Option (Option String)} (hk : k.Numbered)
    (h : Sees a k (.reading numTry v ids contents)) (id : ℕ) :
    Sees a k (.reading numTry v ids (Function.update contents id (some (k.tryGet id)))) := by
  refine ⟨h.1, fun heq n hn => ?_⟩
  obtain ⟨hlisted, hread⟩ := h.2 heq n hn
  refine ⟨hlisted, fun content hcontent => ?_⟩
  by_cases hid : n.id = id
  · rw [← hid, Function.update_self, Option.some.injEq, hk.tryGet hn] at hcontent
    exact hcontent.symm
  · rw [Function.update_of_ne hid] at hcontent
    exact hread content hcontent

/-- **The check covers every node**, since all of them were listed and read. -/
theorem Sees.check {numTry v : ℕ} {ids : List ℕ} {contents : ℕ → Option (Option String)}
    {read : List (Option String)} (h : Sees a k (.reading numTry v ids contents))
    (hread : ids.map contents = read.map some) : Sees a k (afterContents a numTry v read) := by
  unfold afterContents
  split
  · trivial
  · exact sees_retry numTry
  · next hfree =>
    refine ⟨h.1, fun heq n hn => ?_⟩
    obtain ⟨hlisted, hsame⟩ := h.2 heq n hn
    have hmem : contents n.id ∈ read.map some := by
      rw [← hread]
      exact List.mem_map_of_mem hlisted
    obtain ⟨content, hcontent, hsome⟩ := List.mem_map.1 hmem
    rw [hsame content hsome.symm] at hcontent
    exact unopposed_of_contents hfree n.data hcontent

variable {cols : U → UpdateAffectedColumns} {s s' : LightweightUpdates U}

/-- **What holds in every reachable state.** A node does not conflict with any later one. -/
structure Inv (cols : U → UpdateAffectedColumns) (s : LightweightUpdates U) : Prop where
  numbered : s.inProgress.Numbered
  data : ∀ n ∈ s.inProgress.nodes, n.data = (cols n.owner).toString
  compatible : ∀ n ∈ s.inProgress.nodes, ∀ m ∈ s.inProgress.nodes, n.id < m.id → Unopposed (cols m.owner) n.data
  sees : ∀ u, Sees (cols u) s.inProgress (s.lock u)

theorem inv_initial (version nextId : ℕ) : Inv cols (initial version nextId) where
  numbered := ⟨nofun, List.nodup_nil⟩
  data := nofun
  compatible := nofun
  sees := fun _ => trivial

variable [DecidableEq U]

theorem Inv.setLock (h : Inv cols s) (u : U) {state : LockState} (hsees : Sees (cols u) s.inProgress state) :
    Inv cols (s.setLock u state) := by
  refine ⟨h.numbered, h.data, h.compatible, fun w => ?_⟩
  change Sees (cols w) s.inProgress (Function.update s.lock u state w)
  by_cases hw : w = u
  · subst hw
    rw [Function.update_self]
    exact hsees
  · rw [Function.update_of_ne hw]
    exact h.sees w

omit [DecidableEq U] in
/-- **A node is created** by a call that has checked all others. -/
theorem Inv.multi (h : Inv cols s) {u : U} {numTry v : ℕ} (hlock : s.lock u = .committing numTry v)
    (hversion : v = s.inProgress.version) :
    Inv cols { s with inProgress := s.inProgress.multi u (cols u).toString } := by
  have hfree : ∀ n ∈ s.inProgress.nodes, Unopposed (cols u) n.data := by
    have hsees := h.sees u
    rw [hlock] at hsees
    exact hsees.2 hversion
  refine ⟨h.numbered.multi u _, ?_, ?_, fun w => (h.sees w).multi u _⟩
  · intro n hn
    rcases List.mem_append.1 hn with hn | hn
    · exact h.data n hn
    · obtain rfl := List.mem_singleton.1 hn
      rfl
  · intro n hn m hm hlt
    rcases List.mem_append.1 hn with hn | hn
    · rcases List.mem_append.1 hm with hm | hm
      · exact h.compatible n hn m hm hlt
      · obtain rfl := List.mem_singleton.1 hm
        exact hfree n hn
    · -- the new node has the greatest number
      obtain rfl := List.mem_singleton.1 hn
      rcases List.mem_append.1 hm with hm | hm
      · exact absurd (h.numbered.lt m hm) (Nat.lt_asymm hlt)
      · obtain rfl := List.mem_singleton.1 hm
        exact absurd hlt (lt_irrefl _)

/-- **One step.** -/
theorem Inv.step (h : Inv cols s) (hstep : Step cols s s') : Inv cols s' := by
  cases hstep with
  | getChildren u hlock => exact h.setLock u (sees_getChildren _ _ _)
  | tryGet u id hlock hid =>
    have hsees := h.sees u
    rw [hlock] at hsees
    exact h.setLock u (hsees.tryGet h.numbered id)
  | check u hlock hread =>
    have hsees := h.sees u
    rw [hlock] at hsees
    exact h.setLock u (hsees.check hread)
  | commit u hlock hversion => exact (h.multi hlock hversion).setLock u trivial
  | commitLost u hlock hversion => exact (h.multi hlock hversion).setLock u trivial
  | badVersion u hlock hversion => exact h.setLock u (sees_retry _)
  | fail u => exact h.setLock u trivial
  | remove id =>
    refine ⟨h.numbered.remove id, fun n hn => h.data n (List.mem_of_mem_filter hn), ?_, fun w => (h.sees w).remove id⟩
    exact fun n hn m hm => h.compatible n (List.mem_of_mem_filter hn) m (List.mem_of_mem_filter hm)

/-- **Every run.** -/
theorem inv_of_reachable (h : Reachable cols s) : Inv cols s := by
  obtain ⟨version, nextId, hrun⟩ := h
  induction hrun with
  | refl => exact inv_initial version nextId
  | tail _ hstep ih => exact ih.step hstep

/-! ## A call that is not disturbed -/

omit [ColumnText] in
theorem setLock_setLock (s : LightweightUpdates U) (u : U) (state state' : LockState) :
    (s.setLock u state).setLock u state' = s.setLock u state' := by
  unfold setLock
  rw [Function.update_idem]

omit [ColumnText] in
theorem lock_setLock (s : LightweightUpdates U) (u : U) (state : LockState) : (s.setLock u state).lock u = state := by
  unfold setLock
  exact Function.update_self u state s.lock

theorem tryGet_all (cols : U → UpdateAffectedColumns) (s : LightweightUpdates U) (u : U) (numTry v : ℕ) {ids : List ℕ}
    (todo : List ℕ) (htodo : ∀ id ∈ todo, id ∈ ids)
    (contents : ℕ → Option (Option String)) :
    ∃ contents', (∀ id ∈ todo, contents' id = some (s.inProgress.tryGet id)) ∧
      (∀ id, contents id = some (s.inProgress.tryGet id) → contents' id = some (s.inProgress.tryGet id)) ∧
      Relation.ReflTransGen (Step cols) (s.setLock u (.reading numTry v ids contents))
        (s.setLock u (.reading numTry v ids contents')) := by
  induction todo generalizing contents with
  | nil => exact ⟨contents, nofun, fun _ h => h, .refl⟩
  | cons id todo ih =>
    obtain ⟨contents', hread, hkeep, hrun⟩ := ih (fun i hi => htodo i (List.mem_cons_of_mem id hi))
      (Function.update contents id (some (s.inProgress.tryGet id)))
    have hid := hkeep id (Function.update_self _ _ _)
    refine ⟨contents', ?_, fun i hi => hkeep i ?_, ?_⟩
    · intro i hi
      rcases List.mem_cons.1 hi with rfl | hi
      · exact hid
      · exact hread i hi
    · by_cases h : i = id
      · rw [h, Function.update_self]
      · rw [Function.update_of_ne h]
        exact hi
    · have hget : Step cols (s.setLock u (.reading numTry v ids contents)) _ :=
        Step.tryGet _ u id (lock_setLock _ _ _) (htodo id List.mem_cons_self)
      rw [setLock_setLock] at hget
      exact Relation.ReflTransGen.head hget hrun

/-- **A call that is not disturbed gets its node**, when it conflicts with no node that is there. -/
theorem lock_undisturbed (cols : U → UpdateAffectedColumns) {s : LightweightUpdates U} {u : U} {numTry : ℕ}
    (hk : s.inProgress.Numbered) (hlock : s.lock u = .trying numTry)
    (hfree : hasDependencyInProgress (cols u) (s.inProgress.nodes.map fun n => some n.data) = .ok false) :
    Relation.ReflTransGen (Step cols) s
      ({ s with inProgress := s.inProgress.multi u (cols u).toString }.setLock u (.locked s.inProgress.nextId)) := by
  have hlist : Step cols s _ := Step.getChildren s u hlock
  obtain ⟨contents, hread, -, hreads⟩ := tryGet_all cols s u numTry
    s.inProgress.version (s.inProgress.nodes.map InProgressNode.id) (fun _ h => h) fun _ => none
  have hcontents : (s.inProgress.nodes.map InProgressNode.id).map contents =
      (s.inProgress.nodes.map fun n => some n.data).map some := by
    rw [List.map_map, List.map_map]
    refine List.map_congr_left fun n hn => ?_
    change contents n.id = some (some n.data)
    rw [hread n.id (List.mem_map_of_mem hn), hk.tryGet hn]
  have hcheck : Step cols (s.setLock u (.reading numTry s.inProgress.version _ contents)) _ :=
    Step.check _ u (lock_setLock _ _ _) hcontents
  have hafter : afterContents (cols u) numTry s.inProgress.version (s.inProgress.nodes.map fun n => some n.data) =
      .committing numTry s.inProgress.version := by
    unfold afterContents
    rw [hfree]
  rw [setLock_setLock, hafter] at hcheck
  have hcommit : Step cols (s.setLock u (.committing numTry s.inProgress.version)) _ :=
    Step.commit _ u (lock_setLock _ _ _) rfl
  have hrun := ((Relation.ReflTransGen.single hlist).trans hreads).tail hcheck
  refine cast (congrArg _ ?_) (hrun.tail hcommit)
  exact setLock_setLock { s with inProgress := s.inProgress.multi u (cols u).toString } u
    (.committing numTry s.inProgress.version) (.locked s.inProgress.nextId)

/-! ## Exclusion -/

variable [LawfulColumnText]

/-- **Updates in progress do not conflict**: the columns of two updates that own a node each are read
back from the nodes, and are not in each other's way. -/
theorem noConflict_of_reachable (hcols : ∀ u, (cols u).Sized) (h : Reachable cols s) {n m : InProgressNode U}
    (hn : n ∈ s.inProgress.nodes) (hm : m ∈ s.inProgress.nodes) (howner : n.owner ≠ m.owner) :
    UpdateAffectedColumns.fromString n.data = .ok (cols n.owner) ∧
      UpdateAffectedColumns.fromString m.data = .ok (cols m.owner) ∧
      (cols n.owner).hasConflict (cols m.owner) = false := by
  have hinv := inv_of_reachable h
  have hread : ∀ n ∈ s.inProgress.nodes, UpdateAffectedColumns.fromString n.data = .ok (cols n.owner) := by
    intro n hn
    rw [hinv.data n hn]
    exact UpdateAffectedColumns.fromString_toString (hcols n.owner)
  have hfree : ∀ n ∈ s.inProgress.nodes, ∀ m ∈ s.inProgress.nodes, n.id < m.id →
      (cols n.owner).hasConflict (cols m.owner) = false := by
    intro n hn m hm hlt
    obtain ⟨c, hc, hfree⟩ := hinv.compatible n hn m hm hlt
    rw [hread n hn, Except.ok.injEq] at hc
    rw [hc]
    exact hfree
  refine ⟨hread n hn, hread m hm, ?_⟩
  rcases Nat.lt_trichotomy n.id m.id with hlt | heq | hgt
  · exact hfree n hn m hm hlt
  · exact absurd (congrArg InProgressNode.owner (hinv.numbered.eq_of_id hn hm heq)) howner
  · rw [UpdateAffectedColumns.hasConflict_comm]
    exact hfree m hm n hn hgt

end LightweightUpdates

/-! ## Two updates at the same time -/

/-- The quotation mark of column names. -/
def backtick : Char := Char.ofNat 96

theorem isQuote_backtick : PlainText.IsQuote backtick := by decide

/-- Plain text: an instance of the interface for concrete inputs. -/
@[reducible] def ColumnText.plain : ColumnText where
  toNumberText := NumberText.decimal
  writeBackQuotedString := PlainText.quoted backtick
  readBackQuotedString := PlainText.readQuotedText backtick

section Plain

attribute [local instance] ColumnText.plain

theorem LawfulColumnText.plain : LawfulColumnText where
  toLawfulNumberText := LawfulNumberText.decimal
  takes_backQuoted s _ := PlainText.takes_quoted isQuote_backtick s _

attribute [local instance] LawfulColumnText.plain

namespace LightweightUpdates

/-- Two updates of different columns. -/
def twoUpdates (u : Bool) : UpdateAffectedColumns :=
  if u then { used := ⟨["a"], by decide⟩, updated := ⟨["x"], by decide⟩ }
  else { used := ⟨["a"], by decide⟩, updated := ⟨["y"], by decide⟩ }

theorem sized_twoUpdates (u : Bool) : (twoUpdates u).Sized := by
  cases u
  · exact ⟨by decide, by decide⟩
  · exact ⟨by decide, by decide⟩

/-- Both updates hold a node. -/
def bothLocked : LightweightUpdates Bool where
  inProgress := ((⟨7, 0, []⟩ : InProgress Bool).multi true (twoUpdates true).toString).multi false
    (twoUpdates false).toString
  lock := fun u => .locked (if u then 0 else 1)

theorem check_twoUpdates :
    hasDependencyInProgress (twoUpdates false) [some (twoUpdates true).toString] = .ok false := by
  have hread := UpdateAffectedColumns.fromString_toString (sized_twoUpdates true)
  unfold hasDependencyInProgress
  rw [hread]
  rfl

section Run

-- the texts are not to be computed
attribute [local irreducible] UpdateAffectedColumns.toString UpdateAffectedColumns.fromString

theorem reachable_bothLocked : Reachable twoUpdates bothLocked := by
  have hnumbered := (@inv_initial _ Bool twoUpdates 7 0).numbered
  have hfirst := lock_undisturbed twoUpdates (u := true) hnumbered rfl rfl
  have hsecond := lock_undisturbed twoUpdates (u := false)
    (s := ({ initial 7 0 with inProgress := (initial (U := Bool) 7 0).inProgress.multi true (twoUpdates true).toString } :
      LightweightUpdates Bool).setLock true (.locked 0)) (hnumbered.multi true (twoUpdates true).toString) rfl check_twoUpdates
  refine ⟨7, 0, cast (congrArg _ ?_) (hfirst.trans hsecond)⟩
  refine (LightweightUpdates.mk.injEq _ _ _ _).mpr ⟨rfl, ?_⟩
  funext u
  cases u <;> rfl

end Run

theorem noConflict_bothLocked :
    UpdateAffectedColumns.fromString (twoUpdates true).toString = .ok (twoUpdates true) ∧
      UpdateAffectedColumns.fromString (twoUpdates false).toString = .ok (twoUpdates false) ∧
      (twoUpdates true).hasConflict (twoUpdates false) = false :=
  noConflict_of_reachable (n := ⟨0, (twoUpdates true).toString, true⟩) (m := ⟨1, (twoUpdates false).toString, false⟩)
    sized_twoUpdates reachable_bothLocked (by simp [bothLocked, InProgress.multi]) (by simp [bothLocked, InProgress.multi])
    (by decide)

end LightweightUpdates

end Plain

end MergeTree
