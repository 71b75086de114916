import MergeTree.Spec.TTLInfos

/-!
# TTL infos are merged and persisted faithfully, but for one flag

Minima that ignore zero, maxima and optional flags are commutative and associative, so folds
of the infos of parts agree for every order and grouping, and the bounds of the part are
those over its entries (`TTLInfos.fold_unique`). What is written is the text of a JSON value
(`write_eq_text`), and reading it restores every entry except the flag of the table
TTL: the section of the table is left out when its minimum is zero, so a finished table TTL
without any time becomes unfinished (`TTLInfos.persist_iff`).
-/

namespace MergeTree

variable {infos : TTLInfos} {info : TTLInfo} {map : TTLInfoMap}

/-! ## The operations -/

/-- The smaller one of two times, where zero stands for none. -/
def earliest (a b : ℤ) : ℤ := if b ≠ 0 ∧ (a = 0 ∨ b < a) then b else a

/-- The greater one. -/
def latest (a b : ℤ) : ℤ := if b ≠ 0 ∧ (a = 0 ∨ a < b) then b else a

instance : Std.Commutative earliest := ⟨fun a b => by unfold earliest; grind⟩

instance : Std.Associative earliest := ⟨fun a b c => by unfold earliest; grind⟩

instance : Std.LawfulIdentity earliest 0 where
  left_id a := by unfold earliest; grind
  right_id a := by unfold earliest; grind

instance : Std.Commutative latest := ⟨fun a b => by unfold latest; grind⟩

instance : Std.Associative latest := ⟨fun a b c => by unfold latest; grind⟩

instance : Std.LawfulIdentity latest 0 where
  left_id a := by unfold latest; grind
  right_id a := by unfold latest; grind

theorem latest_of_nonneg {a b : ℤ} (ha : 0 ≤ a) (hb : 0 ≤ b) : latest a b = Max.max b a := by
  unfold latest
  grind

theorem earliest_self (a : ℤ) : earliest a a = a := by unfold earliest; grind

theorem latest_self (a : ℤ) : latest a a = a := by unfold latest; grind

theorem earliest_eq_zero {a b : ℤ} : earliest a b = 0 ↔ a = 0 ∧ b = 0 := by
  unfold earliest
  grind

theorem regroup {op : ℤ → ℤ → ℤ} [Std.Commutative op] [Std.Associative op] {c r g t c' r' g' t' : ℤ} (h : op t t' = t') :
    op (op (op (op (op (op (op c r) g) t) c') r') g') t' = op (op (op (op c c') (op r r')) (op g g')) t' := by
  calc op (op (op (op (op (op (op c r) g) t) c') r') g') t' = op (op (op (op c c') (op r r')) (op g g')) (op t t') := by ac_rfl
    _ = op (op (op (op c c') (op r r')) (op g g')) t' := by rw [h]

theorem regroup_read {op : ℤ → ℤ → ℤ} [Std.Commutative op] [Std.Associative op] [Std.LawfulIdentity op 0] {c t g r : ℤ} :
    op (op (op (op 0 c) t) g) r = op (op (op c r) g) t := by
  rw [@Std.LawfulLeftIdentity.left_id ℤ ℤ op 0 _]
  ac_rfl

namespace TTLInfo

/-- Two entries together. -/
def combine (a b : TTLInfo) : TTLInfo :=
  ⟨earliest a.min b.min, Max.max a.max b.max, Option.merge (· && ·) a.ttlFinished b.ttlFinished⟩

/-- The entry with its flag set. -/
def settled (info : TTLInfo) : TTLInfo := { info with ttlFinished := some info.finished }

/-- No time is negative, and there is no maximum without a minimum. -/
structure Sane (info : TTLInfo) : Prop where
  min_nonneg : 0 ≤ info.min
  max_nonneg : 0 ≤ info.max
  max_eq_zero : info.min = 0 → info.max = 0

instance : Std.Commutative combine where
  comm a b := by
    unfold combine
    rw [@Std.Commutative.comm _ earliest _, max_comm, @Std.Commutative.comm _ (Option.merge (· && ·)) _]

instance : Std.Associative combine where
  assoc a b c := by
    unfold combine
    dsimp only
    rw [@Std.Associative.assoc _ earliest _, max_assoc, @Std.Associative.assoc _ (Option.merge (· && ·)) _]

theorem combine_default : combine {} {} = {} := rfl

theorem update_eq_combine (a b : TTLInfo) : a.update b = a.combine b.settled := by
  obtain ⟨min, max, ttlFinished⟩ := a
  unfold update combine settled
  rw [max_comm]
  cases ttlFinished <;> rfl

theorem settled_update (a b : TTLInfo) : (a.update b).settled = a.update b := by
  obtain ⟨min, max, ttlFinished⟩ := a
  cases ttlFinished <;> rfl

theorem Sane.default_update (h : info.Sane) : TTLInfo.update {} info = info.settled := by
  have hmin : earliest 0 info.min = info.min := Std.LawfulLeftIdentity.left_id info.min
  have hmax : Max.max (0 : ℤ) info.max = info.max := max_eq_right h.max_nonneg
  rw [update_eq_combine]
  unfold combine settled
  rw [hmin, hmax]
  rfl

theorem Sane.update {a b : TTLInfo} (ha : a.Sane) (hb : b.Sane) : (a.update b).Sane := by
  obtain ⟨ha₁, ha₂, ha₃⟩ := ha
  obtain ⟨hb₁, hb₂, hb₃⟩ := hb
  constructor <;> (unfold TTLInfo.update; grind)

theorem sane_default : Sane {} := ⟨le_rfl, le_rfl, fun _ => rfl⟩

theorem Filled.sane (h : info.Filled) : info.Sane := by
  obtain ⟨times, ttlFinished, htimes, rfl⟩ := h
  have hfold : ∀ (times : List ℤ) (info : TTLInfo), (∀ time ∈ times, 0 ≤ time) → info.Sane → (times.foldl updateTime info).Sane := by
    intro times
    induction times with
    | nil => exact fun info _ h => h
    | cons time times ih =>
      intro info htimes h
      refine ih _ (fun t ht => htimes t (List.mem_cons_of_mem _ ht)) ?_
      have htime := htimes time List.mem_cons_self
      obtain ⟨h₁, h₂, h₃⟩ := h
      constructor <;> (unfold updateTime; grind)
  obtain ⟨h₁, h₂, h₃⟩ := hfold times {} htimes sane_default
  exact ⟨h₁, h₂, h₃⟩

end TTLInfo

/-! ## Sections -/

/-- One of the five maps. -/
structure TTLSection where
  get : TTLInfos → TTLInfoMap
  set : TTLInfos → TTLInfoMap → TTLInfos
  get_set : ∀ infos map, get (set infos map) = map
  set_set : ∀ infos map map', set (set infos map) map' = set infos map'
  set_get : ∀ infos, set infos (get infos) = infos
  set_updatePart : ∀ infos map timeMin timeMax,
    (set infos map).updatePartMinMaxTTL timeMin timeMax = set (infos.updatePartMinMaxTTL timeMin timeMax) map

namespace TTLSection

def columns : TTLSection :=
  ⟨TTLInfos.columnsTtl, fun infos map => { infos with columnsTtl := map }, fun _ _ => rfl, fun _ _ _ => rfl, fun _ => rfl, fun _ _ _ _ => rfl⟩

def rowsWhere : TTLSection :=
  ⟨TTLInfos.rowsWhereTtl, fun infos map => { infos with rowsWhereTtl := map }, fun _ _ => rfl, fun _ _ _ => rfl, fun _ => rfl, fun _ _ _ _ => rfl⟩

def groupBy : TTLSection :=
  ⟨TTLInfos.groupByTtl, fun infos map => { infos with groupByTtl := map }, fun _ _ => rfl, fun _ _ _ => rfl, fun _ => rfl, fun _ _ _ _ => rfl⟩

def recompression : TTLSection :=
  ⟨TTLInfos.recompressionTtl, fun infos map => { infos with recompressionTtl := map }, fun _ _ => rfl, fun _ _ _ => rfl, fun _ => rfl, fun _ _ _ _ => rfl⟩

def moves : TTLSection :=
  ⟨TTLInfos.movesTtl, fun infos map => { infos with movesTtl := map }, fun _ _ => rfl, fun _ _ _ => rfl, fun _ => rfl, fun _ _ _ _ => rfl⟩

/-- The five maps. -/
def all : List TTLSection := [columns, rowsWhere, groupBy, recompression, moves]

variable (s : TTLSection)

/-- The infos with the bounds of entries in the bounds of the part. -/
def updateParts (infos : TTLInfos) (l : List (String × TTLInfo)) : TTLInfos :=
  { infos with
    partMinTtl := (l.map fun x => x.2.min).foldl earliest infos.partMinTtl
    partMaxTtl := (l.map fun x => x.2.max).foldl latest infos.partMaxTtl }

theorem foldl_set_updatePart (change : TTLInfoMap → String × TTLInfo → TTLInfoMap) (l : List (String × TTLInfo)) (infos : TTLInfos) :
    l.foldl (fun infos x => (s.set infos (change (s.get infos) x)).updatePartMinMaxTTL x.2.min x.2.max) infos =
      s.set (updateParts infos l) (l.foldl change (s.get infos)) := by
  induction l generalizing infos with
  | nil => exact (s.set_get infos).symm
  | cons x l ih =>
    have hparts : ∀ map, updateParts (s.set (infos.updatePartMinMaxTTL x.2.min x.2.max) map) l =
        s.set (updateParts (infos.updatePartMinMaxTTL x.2.min x.2.max) l) map := by
      intro map
      generalize infos.updatePartMinMaxTTL x.2.min x.2.max = infos'
      clear ih
      induction l generalizing infos' with
      | nil => rfl
      | cons y l ih' =>
        have hfirst := s.set_updatePart infos' map y.2.min y.2.max
        calc updateParts (s.set infos' map) (y :: l) = updateParts ((s.set infos' map).updatePartMinMaxTTL y.2.min y.2.max) l := rfl
          _ = updateParts (s.set (infos'.updatePartMinMaxTTL y.2.min y.2.max) map) l := by rw [hfirst]
          _ = s.set (updateParts infos' (y :: l)) map := ih' _
    rw [List.foldl_cons, s.set_updatePart, ih, s.get_set, hparts, s.set_set]
    rfl

theorem foldl_set (change : TTLInfoMap → String × TTLInfo → TTLInfoMap) (l : List (String × TTLInfo)) (infos : TTLInfos) :
    l.foldl (fun infos x => s.set infos (change (s.get infos) x)) infos = s.set infos (l.foldl change (s.get infos)) := by
  induction l generalizing infos with
  | nil => exact (s.set_get infos).symm
  | cons x l ih => rw [List.foldl_cons, ih, s.get_set, s.set_set, List.foldl_cons]

end TTLSection

namespace TTLInfos

/-- The smallest time over the entries that count for the part, zero if there is none. -/
def entriesMin (infos : TTLInfos) : ℤ :=
  earliest (earliest (earliest (KeyedMap.total earliest 0 TTLInfo.min infos.columnsTtl)
    (KeyedMap.total earliest 0 TTLInfo.min infos.rowsWhereTtl)) (KeyedMap.total earliest 0 TTLInfo.min infos.groupByTtl)) infos.tableTtl.min

/-- The greatest one. -/
def entriesMax (infos : TTLInfos) : ℤ :=
  latest (latest (latest (KeyedMap.total latest 0 TTLInfo.max infos.columnsTtl)
    (KeyedMap.total latest 0 TTLInfo.max infos.rowsWhereTtl)) (KeyedMap.total latest 0 TTLInfo.max infos.groupByTtl)) infos.tableTtl.max

/-- **What `update` does**: the maps are combined entry by entry. -/
theorem update_eq (x y : TTLInfos) :
    x.update y =
      { columnsTtl := KeyedMap.upsertAll updateEntry x.columnsTtl y.columnsTtl
        rowsWhereTtl := KeyedMap.upsertAll updateEntry x.rowsWhereTtl y.rowsWhereTtl
        groupByTtl := KeyedMap.upsertAll updateEntry x.groupByTtl y.groupByTtl
        recompressionTtl := KeyedMap.upsertAll updateEntry x.recompressionTtl y.recompressionTtl
        movesTtl := KeyedMap.upsertAll updateEntry x.movesTtl y.movesTtl
        tableTtl := x.tableTtl.update y.tableTtl
        partMinTtl := earliest ((y.groupByTtl.toList.map fun e => e.2.min).foldl earliest
          ((y.rowsWhereTtl.toList.map fun e => e.2.min).foldl earliest
            ((y.columnsTtl.toList.map fun e => e.2.min).foldl earliest x.partMinTtl))) (x.tableTtl.update y.tableTtl).min
        partMaxTtl := latest ((y.groupByTtl.toList.map fun e => e.2.max).foldl latest
          ((y.rowsWhereTtl.toList.map fun e => e.2.max).foldl latest
            ((y.columnsTtl.toList.map fun e => e.2.max).foldl latest x.partMaxTtl))) (x.tableTtl.update y.tableTtl).max } := by
  have hcolumns := TTLSection.columns.foldl_set_updatePart (fun map e => KeyedMap.upsert map e.1 (updateEntry e.2))
  have hrowsWhere := TTLSection.rowsWhere.foldl_set_updatePart (fun map e => KeyedMap.upsert map e.1 (updateEntry e.2))
  have hgroupBy := TTLSection.groupBy.foldl_set_updatePart (fun map e => KeyedMap.upsert map e.1 (updateEntry e.2))
  have hrecompression := TTLSection.recompression.foldl_set (fun map e => KeyedMap.upsert map e.1 (updateEntry e.2))
  have hmoves := TTLSection.moves.foldl_set (fun map e => KeyedMap.upsert map e.1 (updateEntry e.2))
  unfold update
  dsimp only [TTLSection.columns, TTLSection.rowsWhere, TTLSection.groupBy, TTLSection.recompression, TTLSection.moves] at *
  rw [hcolumns, hrowsWhere, hgroupBy, hrecompression, hmoves]
  rfl

theorem get_update {s : TTLSection} (hs : s ∈ TTLSection.all) (x y : TTLInfos) :
    s.get (x.update y) = KeyedMap.upsertAll updateEntry (s.get x) (s.get y) := by
  rw [update_eq]
  simp only [TTLSection.all, List.mem_cons, List.not_mem_nil, or_false] at hs
  rcases hs with rfl | rfl | rfl | rfl | rfl <;> rfl

/-- All entries are sane. -/
structure Sane (infos : TTLInfos) : Prop where
  table : infos.tableTtl.Sane
  entries : ∀ s ∈ TTLSection.all, ∀ name info, KeyedMap.lookup (s.get infos) name = some info → info.Sane

/-- **What holds of infos that were folded**: the flags of the maps are set, and the bounds of the part are those over the
entries. -/
structure Folded (infos : TTLInfos) : Prop where
  sane : infos.Sane
  settled : ∀ s ∈ TTLSection.all, ∀ name info, KeyedMap.lookup (s.get infos) name = some info → info.settled = info
  partMin : infos.partMinTtl = infos.entriesMin
  partMax : infos.partMaxTtl = infos.entriesMax

theorem folded_default : Folded {} where
  sane := ⟨TTLInfo.sane_default, fun s hs name info h => by
    simp only [TTLSection.all, List.mem_cons, List.not_mem_nil, or_false] at hs
    rcases hs with rfl | rfl | rfl | rfl | rfl <;> cases h⟩
  settled := fun s hs name info h => by
    simp only [TTLSection.all, List.mem_cons, List.not_mem_nil, or_false] at hs
    rcases hs with rfl | rfl | rfl | rfl | rfl <;> cases h
  partMin := rfl
  partMax := rfl

theorem lookup_update {s : TTLSection} (hs : s ∈ TTLSection.all) (x y : TTLInfos) (name : String) :
    KeyedMap.lookup (s.get (x.update y)) name =
      match KeyedMap.lookup (s.get y) name with
      | some info => some (((KeyedMap.lookup (s.get x) name).getD {}).update info)
      | none => KeyedMap.lookup (s.get x) name := by
  rw [get_update hs, KeyedMap.lookup_upsertAll]
  cases KeyedMap.lookup (s.get y) name <;> rfl

theorem Folded.update {x y : TTLInfos} (hx : x.Folded) (hy : y.Sane) : (x.update y).Folded := by
  have hcases : ∀ s ∈ TTLSection.all, ∀ name info, KeyedMap.lookup (s.get (x.update y)) name = some info →
      info.Sane ∧ info.settled = info := by
    intro s hs name info h
    rw [lookup_update hs] at h
    cases hother : KeyedMap.lookup (s.get y) name with
    | none =>
      rw [hother] at h
      exact ⟨hx.sane.entries s hs name info h, hx.settled s hs name info h⟩
    | some other =>
      rw [hother] at h
      obtain rfl := Option.some.inj h
      refine ⟨TTLInfo.Sane.update ?_ (hy.entries s hs name other hother), TTLInfo.settled_update _ _⟩
      cases hold : KeyedMap.lookup (s.get x) name with
      | none => exact TTLInfo.sane_default
      | some old => exact hx.sane.entries s hs name old hold
  have hentry : ∀ (info : TTLInfo) (old : Option TTLInfo), info.Sane → (∀ o ∈ old, o.Sane) → (updateEntry info old).Sane := by
    intro info old hinfo hold
    refine TTLInfo.Sane.update ?_ hinfo
    cases old with
    | none => exact TTLInfo.sane_default
    | some old => exact hold old rfl
  have htotalMin : ∀ s ∈ TTLSection.all, KeyedMap.total earliest 0 TTLInfo.min (KeyedMap.upsertAll updateEntry (s.get x) (s.get y)) =
      earliest (KeyedMap.total earliest 0 TTLInfo.min (s.get x)) (KeyedMap.total earliest 0 TTLInfo.min (s.get y)) :=
    fun s hs => KeyedMap.total_upsertAll TTLInfo.Sane hentry (fun info old _ _ => by cases old <;> rfl)
      (hx.sane.entries s hs) (hy.entries s hs)
  have htotalMax : ∀ s ∈ TTLSection.all, KeyedMap.total latest 0 TTLInfo.max (KeyedMap.upsertAll updateEntry (s.get x) (s.get y)) =
      latest (KeyedMap.total latest 0 TTLInfo.max (s.get x)) (KeyedMap.total latest 0 TTLInfo.max (s.get y)) := by
    intro s hs
    refine KeyedMap.total_upsertAll TTLInfo.Sane hentry (fun info old hinfo hold => ?_) (hx.sane.entries s hs) (hy.entries s hs)
    have hinfo := hinfo.max_nonneg
    cases old with
    | none => exact (latest_of_nonneg le_rfl hinfo).symm
    | some old => exact (latest_of_nonneg (hold old rfl).max_nonneg hinfo).symm
  refine ⟨⟨?_, fun s hs name info h => (hcases s hs name info h).1⟩, fun s hs name info h => (hcases s hs name info h).2, ?_, ?_⟩
  · rw [update_eq]
    exact hx.sane.table.update hy.table
  · have htable : earliest x.tableTtl.min (x.tableTtl.update y.tableTtl).min = (x.tableTtl.update y.tableTtl).min := by
      change earliest x.tableTtl.min (earliest x.tableTtl.min y.tableTtl.min) = earliest x.tableTtl.min y.tableTtl.min
      rw [← @Std.Associative.assoc _ earliest _, earliest_self]
    have hfold : ∀ (m : TTLInfoMap) (a : ℤ),
        (m.toList.map fun e => e.2.min).foldl earliest a = earliest a (KeyedMap.total earliest 0 TTLInfo.min m) :=
      fun m a => KeyedMap.foldl_eq_op a _
    have hc := htotalMin .columns (by simp [TTLSection.all])
    have hr := htotalMin .rowsWhere (by simp [TTLSection.all])
    have hg := htotalMin .groupBy (by simp [TTLSection.all])
    rw [update_eq]
    unfold entriesMin
    dsimp only [TTLSection.columns, TTLSection.rowsWhere, TTLSection.groupBy] at hc hr hg ⊢
    rw [hfold, hfold, hfold, hc, hr, hg, hx.partMin]
    exact regroup htable
  · have htable : latest x.tableTtl.max (x.tableTtl.update y.tableTtl).max = (x.tableTtl.update y.tableTtl).max := by
      have hmax : (x.tableTtl.update y.tableTtl).max = latest x.tableTtl.max y.tableTtl.max :=
        (latest_of_nonneg hx.sane.table.max_nonneg hy.table.max_nonneg).symm
      rw [hmax, ← @Std.Associative.assoc _ latest _, latest_self]
    have hfold : ∀ (m : TTLInfoMap) (a : ℤ),
        (m.toList.map fun e => e.2.max).foldl latest a = latest a (KeyedMap.total latest 0 TTLInfo.max m) :=
      fun m a => KeyedMap.foldl_eq_op a _
    have hc := htotalMax .columns (by simp [TTLSection.all])
    have hr := htotalMax .rowsWhere (by simp [TTLSection.all])
    have hg := htotalMax .groupBy (by simp [TTLSection.all])
    rw [update_eq]
    unfold entriesMax
    dsimp only [TTLSection.columns, TTLSection.rowsWhere, TTLSection.groupBy] at hc hr hg ⊢
    rw [hfold, hfold, hfold, hc, hr, hg, hx.partMax]
    exact regroup htable

/-! ## Every order and grouping -/

theorem observes_table : Observes update {} Sane Folded tableTtl (fun infos => infos.tableTtl.settled) TTLInfo.combine {} where
  init_kept := folded_default
  init_obs := rfl
  update_kept hx hy := hx.update hy
  update_valid hx hy := (hx.update hy).sane
  update_obs {x y} _ _ := by
    rw [update_eq]
    exact TTLInfo.update_eq_combine _ _
  update_val {x y} _ _ := by
    rw [update_eq]
    exact TTLInfo.settled_update _ _

/-- The entries of a map, by name. -/
def entriesOf (s : TTLSection) (infos : TTLInfos) : String → Option TTLInfo := KeyedMap.lookup (s.get infos)

/-- Entries are combined pointwise. -/
def combineEntries (a b : String → Option TTLInfo) : String → Option TTLInfo := fun name => Option.merge TTLInfo.combine (a name) (b name)

instance : Std.Commutative combineEntries := ⟨fun a b => funext fun name => Std.Commutative.comm (a name) (b name)⟩

instance : Std.Associative combineEntries := ⟨fun a b c => funext fun name => Std.Associative.assoc (a name) (b name) (c name)⟩

theorem observes_entries {s : TTLSection} (hs : s ∈ TTLSection.all) :
    Observes update {} Sane Folded (entriesOf s) (fun infos name => (entriesOf s infos name).map TTLInfo.settled) combineEntries
      fun _ => none where
  init_kept := folded_default
  init_obs := by
    simp only [TTLSection.all, List.mem_cons, List.not_mem_nil, or_false] at hs
    rcases hs with rfl | rfl | rfl | rfl | rfl <;> rfl
  update_kept hx hy := hx.update hy
  update_valid hx hy := (hx.update hy).sane
  update_obs {x y} hx hy := by
    funext name
    unfold entriesOf combineEntries
    dsimp only
    rw [lookup_update hs]
    cases hother : KeyedMap.lookup (s.get y) name with
    | none =>
      cases KeyedMap.lookup (s.get x) name <;> rfl
    | some other =>
      cases KeyedMap.lookup (s.get x) name with
      | none =>
        change some (TTLInfo.update {} other) = some other.settled
        rw [(hy.entries s hs name other hother).default_update]
      | some old =>
        change some (old.update other) = some (old.combine other.settled)
        rw [TTLInfo.update_eq_combine]
  update_val {x y} hx hy := by
    funext name
    cases hentry : entriesOf s (x.update y) name with
    | none => rfl
    | some info =>
      rw [Option.map_some, (hx.update hy).settled s hs name info hentry]

theorem Filled.sane (h : infos.Filled) : infos.Sane where
  table := h.table.sane
  entries s hs name info hlookup := by
    have hmem := KeyedMap.lookup_eq_some.1 hlookup
    simp only [TTLSection.all, List.mem_cons, List.not_mem_nil, or_false] at hs
    rcases hs with rfl | rfl | rfl | rfl | rfl
    · exact (h.columns _ hmem).sane
    · exact (h.rowsWhere _ hmem).sane
    · exact (h.groupBy _ hmem).sane
    · exact (h.recompression _ hmem).sane
    · exact (h.moves _ hmem).sane

variable {l m : List TTLInfos} {x y : TTLInfos}

theorem folded_of_foldOf (hx : FoldOf update {} l x) (hl : ∀ infos ∈ l, infos.Sane) : x.Folded :=
  (hx.observed TTLInfo.combine_default observes_table hl).2.1

/-- **Folds agree for every order and grouping.** -/
theorem fold_unique (hx : FoldOf update {} l x) (hy : FoldOf update {} m y) (hl : ∀ infos ∈ l, infos.Sane) (hperm : l.Perm m) : x = y := by
  have htable := FoldOf.obs_eq_of_perm TTLInfo.combine_default observes_table hx hy hl hperm
  have hnone : combineEntries (fun _ => none) (fun _ => none) = fun _ => none := rfl
  have hmaps : ∀ s ∈ TTLSection.all, s.get x = s.get y := by
    intro s hs
    have hentries : entriesOf s x = entriesOf s y := FoldOf.obs_eq_of_perm hnone (observes_entries hs) hx hy hl hperm
    exact KeyedMap.ext_lookup (congrFun hentries)
  have hxFolded := folded_of_foldOf hx hl
  have hyFolded := folded_of_foldOf hy fun infos hinfos => hl infos (hperm.mem_iff.2 hinfos)
  have hpartMin := hxFolded.partMin
  have hpartMax := hxFolded.partMax
  have hpartMin' := hyFolded.partMin
  have hpartMax' := hyFolded.partMax
  have hcolumns := hmaps .columns (by simp [TTLSection.all])
  have hrowsWhere := hmaps .rowsWhere (by simp [TTLSection.all])
  have hgroupBy := hmaps .groupBy (by simp [TTLSection.all])
  have hrecompression := hmaps .recompression (by simp [TTLSection.all])
  have hmoves := hmaps .moves (by simp [TTLSection.all])
  obtain ⟨_, _, _, _, _, _, _, _⟩ := x
  obtain ⟨_, _, _, _, _, _, _, _⟩ := y
  unfold entriesMin at hpartMin hpartMin'
  unfold entriesMax at hpartMax hpartMax'
  dsimp only [TTLSection.columns, TTLSection.rowsWhere, TTLSection.groupBy, TTLSection.recompression, TTLSection.moves] at *
  subst hcolumns hrowsWhere hgroupBy hrecompression hmoves htable
  rw [hpartMin, hpartMin', hpartMax, hpartMax']

end TTLInfos

/-! ## The text -/

theorem toString_of_nonneg {z : ℤ} (h : 0 ≤ z) : toString z = toString z.toNat := by
  obtain ⟨n, rfl⟩ := Int.eq_ofNat_of_zero_le h
  rfl

theorem writeElements_eq {α : Type} {element : α → String} {json : α → Json} {l : List α}
    (h : ∀ a ∈ l, element a = (json a).text) (isBegin : Bool) : writeElements element isBegin l = Json.itemsText isBegin (l.map json) := by
  induction l generalizing isBegin with
  | nil => rfl
  | cons a l ih =>
    rw [writeElements, List.map_cons, Json.itemsText, h a List.mem_cons_self, ih fun b hb => h b (List.mem_cons_of_mem _ hb)]

theorem Json.fieldsText_append (l l' : List (String × Json)) (isBegin : Bool) :
    fieldsText isBegin (l ++ l') = fieldsText isBegin l ++ fieldsText (isBegin && l.isEmpty) l' := by
  induction l generalizing isBegin with
  | nil => rw [List.nil_append, Json.fieldsText, String.empty_append, List.isEmpty_nil, Bool.and_true]
  | cons x l ih =>
    obtain ⟨key, value⟩ := x
    rw [List.cons_append, Json.fieldsText, ih, Json.fieldsText, List.isEmpty_cons, Bool.and_false, Bool.false_and]
    simp only [String.append_assoc]

theorem writeNumbers_eq (h : info.Sane) :
    ",\"min\":" ++ toString info.min ++ ",\"max\":" ++ toString info.max ++ ",\"finished\":" ++ (if info.finished then "1" else "0") =
      Json.fieldsText false info.jsonFields := by
  have hfinished : (if info.finished then "1" else "0") = toString info.finished.toNat := by
    cases info.finished <;> rfl
  have hmin : ",\"min\":" = "," ++ ("\"" ++ "min" ++ "\":") := rfl
  have hmax : ",\"max\":" = "," ++ ("\"" ++ "max" ++ "\":") := rfl
  have hkey : ",\"finished\":" = "," ++ ("\"" ++ "finished" ++ "\":") := rfl
  rw [hfinished, toString_of_nonneg h.min_nonneg, toString_of_nonneg h.max_nonneg, hmin, hmax, hkey]
  unfold TTLInfo.jsonFields
  simp only [Json.fieldsText, Json.text, Bool.false_eq_true, if_false, String.append_assoc, String.append_empty]

theorem writeEntry_eq (key : String) {x : String × TTLInfo} (h : x.2.Sane) : writeEntry key x = (jsonEntry key x).text := by
  have hnumbers := writeNumbers_eq h
  unfold writeEntry jsonEntry
  rw [Json.text, Json.fieldsText, ← hnumbers, Json.text]
  have hopen : "\x7b\"" = "\x7b" ++ "\"" := rfl
  rw [hopen]
  simp only [if_true, String.append_assoc, String.empty_append]

theorem writeInfos_eq {type : String} (htype : doubleQuoteString type = "\"" ++ type ++ "\"")
    (h : ∀ x ∈ map.toList, x.2.Sane) (isFirst : Bool) :
    (if map.toList.isEmpty then "" else writeInfos map type isFirst) = Json.fieldsText isFirst (jsonSection type "expression" map) := by
  unfold jsonSection
  split
  · rfl
  · have helements := writeElements_eq (fun x hx => writeEntry_eq "expression" (h x hx)) true
    unfold writeInfos
    rw [helements, htype, Json.fieldsText, Json.fieldsText, Json.text]
    have hopen : ":[" = ":" ++ "[" := rfl
    have hkey : "\":" = "\"" ++ ":" := rfl
    rw [hopen, hkey]
    simp only [String.append_assoc, String.append_empty]

theorem writeColumns_eq (h : ∀ x ∈ map.toList, x.2.Sane) :
    (if map.toList.isEmpty then "" else "\"columns\":[" ++ writeElements (writeEntry "name") true map.toList ++ "]") =
      Json.fieldsText true (jsonSection "columns" "name" map) := by
  unfold jsonSection
  split
  · rfl
  · have helements := writeElements_eq (fun x hx => writeEntry_eq "name" (h x hx)) true
    rw [helements, Json.fieldsText, Json.fieldsText, Json.text]
    have hopen : "\"columns\":[" = "\"" ++ "columns" ++ "\":" ++ "[" := rfl
    rw [hopen]
    simp only [if_true, String.append_assoc, String.append_empty, String.empty_append]

theorem writeTable_eq (h : info.Sane) (isFirst : Bool) :
    (if info.min = 0 then ""
      else (if isFirst then "" else ",") ++ "\"table\":\x7b\"min\":" ++ toString info.min ++ ",\"max\":" ++ toString info.max ++
        ",\"finished\":" ++ (if info.finished then "1" else "0") ++ "\x7d") = Json.fieldsText isFirst (jsonTable info) := by
  unfold jsonTable
  split
  · rfl
  · have hfinished : (if info.finished then "1" else "0") = toString info.finished.toNat := by
      cases info.finished <;> rfl
    have hopen : "\"table\":\x7b\"min\":" = "\"" ++ "table" ++ "\":" ++ "\x7b" ++ ("\"" ++ "min" ++ "\":") := rfl
    have hmax : ",\"max\":" = "," ++ ("\"" ++ "max" ++ "\":") := rfl
    have hkey : ",\"finished\":" = "," ++ ("\"" ++ "finished" ++ "\":") := rfl
    rw [hfinished, toString_of_nonneg h.min_nonneg, toString_of_nonneg h.max_nonneg, hopen, hmax, hkey]
    unfold TTLInfo.jsonFields
    simp only [Json.fieldsText, Json.text, Bool.false_eq_true, if_true, if_false, String.append_assoc, String.append_empty, String.empty_append]

theorem doubleQuoteString_plain : ∀ type ∈ ["moves", "recompression", "group_by", "rows_where"],
    doubleQuoteString type = "\"" ++ type ++ "\"" := by
  decide

theorem isEmpty_jsonSection (section_ key : String) (map : TTLInfoMap) : (jsonSection section_ key map).isEmpty = map.toList.isEmpty := by
  unfold jsonSection
  cases map.toList.isEmpty <;> rfl

theorem isEmpty_jsonTable (info : TTLInfo) : (jsonTable info).isEmpty = decide (info.min = 0) := by
  unfold jsonTable
  split <;> rename_i h <;> simp [h]

namespace TTLInfos

theorem Sane.of_mem (h : infos.Sane) (s : TTLSection) (hs : s ∈ TTLSection.all) :
    ∀ x ∈ (s.get infos).toList, x.2.Sane := fun x hx => h.entries s hs x.1 x.2 (KeyedMap.lookup_eq_some.2 hx)

/-- **What is written is the text of a value**, behind the version: every comma is at its place. -/
theorem write_eq_text (h : infos.Sane) : infos.write = "ttl format version: 1\n" ++ infos.json.text := by
  have hcolumns := writeColumns_eq (h.of_mem .columns (by simp [TTLSection.all]))
  have htable := writeTable_eq h.table infos.columnsTtl.toList.isEmpty
  have hmoves := writeInfos_eq (doubleQuoteString_plain "moves" (by simp)) (h.of_mem .moves (by simp [TTLSection.all]))
  have hrecompression := writeInfos_eq (doubleQuoteString_plain "recompression" (by simp))
    (h.of_mem .recompression (by simp [TTLSection.all]))
  have hgroupBy := writeInfos_eq (doubleQuoteString_plain "group_by" (by simp)) (h.of_mem .groupBy (by simp [TTLSection.all]))
  have hrowsWhere := writeInfos_eq (doubleQuoteString_plain "rows_where" (by simp)) (h.of_mem .rowsWhere (by simp [TTLSection.all]))
  dsimp only [TTLSection.columns, TTLSection.rowsWhere, TTLSection.groupBy, TTLSection.recompression, TTLSection.moves] at *
  have hbody : infos.writeBody = Json.fieldsText true (jsonSection "columns" "name" infos.columnsTtl) ++
      Json.fieldsText infos.columnsTtl.toList.isEmpty (jsonTable infos.tableTtl) ++
      Json.fieldsText (infos.columnsTtl.toList.isEmpty && decide (infos.tableTtl.min = 0)) (jsonSection "moves" "expression" infos.movesTtl) ++
      Json.fieldsText (infos.columnsTtl.toList.isEmpty && decide (infos.tableTtl.min = 0) && infos.movesTtl.toList.isEmpty)
        (jsonSection "recompression" "expression" infos.recompressionTtl) ++
      Json.fieldsText (infos.columnsTtl.toList.isEmpty && decide (infos.tableTtl.min = 0) && infos.movesTtl.toList.isEmpty &&
        infos.recompressionTtl.toList.isEmpty) (jsonSection "group_by" "expression" infos.groupByTtl) ++
      Json.fieldsText (infos.columnsTtl.toList.isEmpty && decide (infos.tableTtl.min = 0) && infos.movesTtl.toList.isEmpty &&
        infos.recompressionTtl.toList.isEmpty && infos.groupByTtl.toList.isEmpty)
        (jsonSection "rows_where" "expression" infos.rowsWhereTtl) := by
    rw [← hcolumns, ← htable, ← hmoves, ← hrecompression, ← hgroupBy, ← hrowsWhere]
    rfl
  have happend : ∀ l l' : List (String × Json), (l ++ l').isEmpty = (l.isEmpty && l'.isEmpty) := fun l l' => by cases l <;> rfl
  unfold write json
  rw [hbody, Json.text]
  simp only [Json.fieldsText_append, happend, isEmpty_jsonSection, isEmpty_jsonTable, Bool.true_and, String.append_assoc]

end TTLInfos

/-! ## A text without line feeds -/

/-- Neither a tab nor a line feed. -/
def Unbroken (s : String) : Prop := ∀ c ∈ s.toList, c ≠ '\t' ∧ c ≠ '\n'

theorem Unbroken.append {s t : String} (hs : Unbroken s) (ht : Unbroken t) : Unbroken (s ++ t) := by
  intro c hc
  rw [String.toList_append, List.mem_append] at hc
  exact hc.elim (hs c) (ht c)

theorem unbroken_literal : ∀ s ∈ ["", ",", ":", "\"", "\":", "\x7b", "\x7d", "[", "]", "name", "expression", "min", "max", "finished", "table",
    "columns", "moves", "recompression", "group_by", "rows_where"], Unbroken s := by
  simp [Unbroken]

theorem unbroken_number (n : ℕ) : Unbroken (toString n) := by
  intro c hc
  change c ∈ n.repr.toList at hc
  rw [Nat.toList_repr] at hc
  have hdigit : c.isDigit = true := Nat.isDigit_of_mem_toDigits (by decide) (by decide) hc
  constructor <;> (rintro rfl; revert hdigit; decide)

theorem unbroken_doubleQuoteString (s : String) : Unbroken (doubleQuoteString s) := by
  have hquote : Unbroken (PlainText.quote '"') := by simp [Unbroken, PlainText.quote]
  refine (hquote.append fun c hc => ?_).append hquote
  unfold PlainText.escaped at hc
  rw [String.toList_ofList, List.mem_flatMap] at hc
  obtain ⟨d, -, hc⟩ := hc
  unfold PlainText.escapeChar at hc
  have hescapes : ∀ e ∈ PlainText.escapes '"', e.2 ≠ '\t' ∧ e.2 ≠ '\n' := by decide
  cases hfind : (PlainText.escapes '"').find? fun e => e.1 = d with
  | some e =>
    rw [hfind] at hc
    rcases List.mem_cons.1 hc with rfl | hc
    · decide
    · rw [List.mem_singleton.1 hc]
      exact hescapes e (List.mem_of_find?_eq_some hfind)
  | none =>
    rw [hfind] at hc
    obtain rfl := List.mem_singleton.1 hc
    have hnot := List.find?_eq_none.1 hfind
    constructor
    · rintro rfl
      exact hnot ('\t', 't') (by decide) (decide_eq_true rfl)
    · rintro rfl
      exact hnot ('\n', 'n') (by decide) (decide_eq_true rfl)

theorem unbroken_itemsText {items : List Json} (h : ∀ item ∈ items, Unbroken item.text) (isBegin : Bool) :
    Unbroken (Json.itemsText isBegin items) := by
  induction items generalizing isBegin with
  | nil => exact unbroken_literal "" (by decide)
  | cons item items ih =>
    rw [Json.itemsText]
    have hcomma : Unbroken (if isBegin then "" else ",") := by cases isBegin <;> exact unbroken_literal _ (by decide)
    exact (hcomma.append (h item List.mem_cons_self)).append (ih (fun i hi => h i (List.mem_cons_of_mem _ hi)) false)

theorem unbroken_fieldsText {fields : List (String × Json)} (h : ∀ field ∈ fields, Unbroken field.1 ∧ Unbroken field.2.text)
    (isBegin : Bool) : Unbroken (Json.fieldsText isBegin fields) := by
  induction fields generalizing isBegin with
  | nil => exact unbroken_literal "" (by decide)
  | cons field fields ih =>
    obtain ⟨key, value⟩ := field
    rw [Json.fieldsText]
    have hcomma : Unbroken (if isBegin then "" else ",") := by cases isBegin <;> exact unbroken_literal _ (by decide)
    obtain ⟨hkey, hvalue⟩ := h (key, value) List.mem_cons_self
    have hopen : Unbroken "\"" := unbroken_literal _ (by decide)
    have hclose : Unbroken "\":" := unbroken_literal _ (by decide)
    exact (hcomma.append (((hopen.append hkey).append hclose).append hvalue)).append
      (ih (fun f hf => h f (List.mem_cons_of_mem _ hf)) false)

theorem unbroken_obj {fields : List (String × Json)} (h : ∀ field ∈ fields, Unbroken field.1 ∧ Unbroken field.2.text) :
    Unbroken (Json.obj fields).text := by
  have hopen : Unbroken "\x7b" := unbroken_literal _ (by decide)
  have hclose : Unbroken "\x7d" := unbroken_literal _ (by decide)
  rw [Json.text]
  exact (hopen.append (unbroken_fieldsText h true)).append hclose

theorem unbroken_jsonFields : ∀ field ∈ info.jsonFields, Unbroken field.1 ∧ Unbroken field.2.text := by
  intro field hfield
  simp only [TTLInfo.jsonFields, List.mem_cons, List.not_mem_nil, or_false] at hfield
  rcases hfield with rfl | rfl | rfl
  · exact ⟨unbroken_literal "min" (by decide), unbroken_number _⟩
  · exact ⟨unbroken_literal "max" (by decide), unbroken_number _⟩
  · exact ⟨unbroken_literal "finished" (by decide), unbroken_number _⟩

theorem unbroken_jsonSection {section_ key : String} (hsection : Unbroken section_) (hkey : Unbroken key) (map : TTLInfoMap) :
    ∀ field ∈ jsonSection section_ key map, Unbroken field.1 ∧ Unbroken field.2.text := by
  intro field hfield
  unfold jsonSection at hfield
  split at hfield
  · exact absurd hfield List.not_mem_nil
  · obtain rfl := List.mem_singleton.1 hfield
    have hopen : Unbroken "[" := unbroken_literal _ (by decide)
    have hclose : Unbroken "]" := unbroken_literal _ (by decide)
    refine ⟨hsection, ?_⟩
    rw [Json.text]
    refine (hopen.append (unbroken_itemsText (fun item hitem => ?_) true)).append hclose
    obtain ⟨x, -, rfl⟩ := List.mem_map.1 hitem
    refine unbroken_obj fun field hfield => ?_
    rcases List.mem_cons.1 hfield with rfl | hfield
    · exact ⟨hkey, unbroken_doubleQuoteString x.1⟩
    · exact unbroken_jsonFields field hfield

theorem unbroken_json (infos : TTLInfos) : Unbroken infos.json.text := by
  refine unbroken_obj fun field hfield => ?_
  simp only [List.mem_append] at hfield
  rcases hfield with ((((hfield | hfield) | hfield) | hfield) | hfield) | hfield
  · exact unbroken_jsonSection (unbroken_literal _ (by decide)) (unbroken_literal _ (by decide)) _ field hfield
  · unfold jsonTable at hfield
    split at hfield
    · exact absurd hfield List.not_mem_nil
    · obtain rfl := List.mem_singleton.1 hfield
      exact ⟨unbroken_literal "table" (by decide), unbroken_obj unbroken_jsonFields⟩
  · exact unbroken_jsonSection (unbroken_literal _ (by decide)) (unbroken_literal _ (by decide)) _ field hfield
  · exact unbroken_jsonSection (unbroken_literal _ (by decide)) (unbroken_literal _ (by decide)) _ field hfield
  · exact unbroken_jsonSection (unbroken_literal _ (by decide)) (unbroken_literal _ (by decide)) _ field hfield
  · exact unbroken_jsonSection (unbroken_literal _ (by decide)) (unbroken_literal _ (by decide)) _ field hfield

/-! ## Reading -/

theorem lookup_jsonSection (section_ key k : String) (map : TTLInfoMap) :
    (jsonSection section_ key map).lookup k =
      if k = section_ ∧ map.toList.isEmpty = false then some (.arr (map.toList.map (jsonEntry key))) else none := by
  unfold jsonSection
  cases map.toList.isEmpty with
  | true => simp
  | false =>
    by_cases hk : k = section_
    · simp [hk]
    · have hbeq : (k == section_) = false := beq_eq_false_iff_ne.2 hk
      simp [List.lookup, hbeq, hk]

theorem lookup_jsonTable (info : TTLInfo) (k : String) :
    (jsonTable info).lookup k = if k = "table" ∧ info.min ≠ 0 then some (.obj info.jsonFields) else none := by
  unfold jsonTable
  by_cases hmin : info.min = 0
  · simp [hmin]
  · by_cases hk : k = "table"
    · simp [hk, hmin]
    · have hbeq : (k == "table") = false := beq_eq_false_iff_ne.2 hk
      simp [List.lookup, hbeq, hk, hmin]

theorem readTTLInfo_eq (h : info.Sane) (fields : List (String × Json))
    (hfields : ∀ k ∈ ["min", "max", "finished"], fields.lookup k = none) :
    readTTLInfo (.obj (fields ++ info.jsonFields)) = .ok info.settled := by
  have hmin : (fields ++ info.jsonFields).lookup "min" = some (.num info.min.toNat) := by
    rw [List.lookup_append, hfields "min" (by simp)]
    rfl
  have hmax : (fields ++ info.jsonFields).lookup "max" = some (.num info.max.toNat) := by
    rw [List.lookup_append, hfields "max" (by simp)]
    rfl
  have hfinished : (fields ++ info.jsonFields).lookup "finished" = some (.num info.finished.toNat) := by
    rw [List.lookup_append, hfields "finished" (by simp)]
    rfl
  have hflag : decide (info.finished.toNat ≠ 0) = info.finished := by cases info.finished <;> rfl
  unfold readTTLInfo Json.field Json.field?
  dsimp only
  rw [hmin, hmax, hfinished]
  change Except.ok (⟨(info.min.toNat : ℤ), (info.max.toNat : ℤ), some (decide (info.finished.toNat ≠ 0))⟩ : TTLInfo) = _
  rw [Int.toNat_of_nonneg h.min_nonneg, Int.toNat_of_nonneg h.max_nonneg, hflag]
  rfl

theorem bind_of_ok {α β ε : Type} {x : Except ε α} {a : α} {f : α → Except ε β} {r : Except ε β} (hx : x = .ok a) (hf : f a = r) :
    (x >>= f) = r := by
  rw [hx]
  exact hf

theorem readEntry_eq {key : String} (hkey : key = "name" ∨ key = "expression") {x : String × TTLInfo} (hx : x.2.Sane) :
    readEntry key (jsonEntry key x) = .ok (x.1, x.2.settled) := by
  have hinfo : readTTLInfo (jsonEntry key x) = .ok x.2.settled := by
    refine readTTLInfo_eq hx [(key, .str x.1)] fun k hk => ?_
    simp only [List.mem_cons, List.not_mem_nil, or_false] at hk
    rcases hkey with rfl | rfl <;> rcases hk with rfl | rfl | rfl <;> rfl
  have hname : (jsonEntry key x).field key = .ok (.str x.1) := by
    rcases hkey with rfl | rfl <;> rfl
  unfold readEntry
  rw [hinfo, hname]
  rfl

/-- The map with all flags set. -/
def settledMap (map : TTLInfoMap) : TTLInfoMap := KeyedSet.map map (fun x => (x.1, x.2.settled)) fun _ => rfl

theorem foldl_emplace_settled (map : TTLInfoMap) :
    (map.toList.map fun x => (x.1, x.2.settled)).foldl KeyedSet.emplace (KeyedSet.empty : TTLInfoMap) = settledMap map :=
  KeyedMap.foldl_emplace_empty (settledMap map)

theorem updateParts_settled (infos : TTLInfos) (l : List (String × TTLInfo)) :
    TTLSection.updateParts infos (l.map fun x => (x.1, x.2.settled)) = TTLSection.updateParts infos l := by
  unfold TTLSection.updateParts
  rw [List.map_map, List.map_map]
  rfl

namespace TTLInfos

theorem readSection_eq (s : TTLSection) {section_ key : String} (hkey : key = "name" ∨ key = "expression")
    (hmap : ∀ x ∈ map.toList, x.2.Sane) {json : Json}
    (hfield : json.field? section_ = if map.toList.isEmpty = false then some (.arr (map.toList.map (jsonEntry key))) else none)
    (updateMinMax : Bool) (infos : TTLInfos) (hempty : s.get infos = KeyedSet.empty) :
    readSection json section_ key (fun infos x => s.set infos (KeyedSet.emplace (s.get infos) x)) updateMinMax infos =
      .ok (s.set (if updateMinMax then TTLSection.updateParts infos map.toList else infos) (settledMap map)) := by
  have hloop : ∀ (l : List (String × TTLInfo)) (infos : TTLInfos), (∀ x ∈ l, x.2.Sane) →
      (l.map (jsonEntry key)).foldlM (fun infos elem => do
        let x ← readEntry key elem
        let infos := (fun infos x => s.set infos (KeyedSet.emplace (s.get infos) x)) infos x
        return if updateMinMax then infos.updatePartMinMaxTTL x.2.min x.2.max else infos) infos =
      .ok ((l.map fun x => (x.1, x.2.settled)).foldl (fun infos x =>
        if updateMinMax then (s.set infos (KeyedSet.emplace (s.get infos) x)).updatePartMinMaxTTL x.2.min x.2.max
        else s.set infos (KeyedSet.emplace (s.get infos) x)) infos) := by
    intro l
    induction l with
    | nil => exact fun infos _ => rfl
    | cons x l ih =>
      intro infos hl
      rw [List.map_cons, List.foldlM_cons, readEntry_eq hkey (hl x List.mem_cons_self)]
      exact ih _ fun y hy => hl y (List.mem_cons_of_mem _ hy)
  have hsections : (map.toList.map fun x => (x.1, x.2.settled)).foldl (fun infos x =>
      if updateMinMax then (s.set infos (KeyedSet.emplace (s.get infos) x)).updatePartMinMaxTTL x.2.min x.2.max
      else s.set infos (KeyedSet.emplace (s.get infos) x)) infos =
      s.set (if updateMinMax then TTLSection.updateParts infos map.toList else infos) (settledMap map) := by
    cases updateMinMax with
    | true =>
      have h := s.foldl_set_updatePart KeyedSet.emplace (map.toList.map fun x => (x.1, x.2.settled)) infos
      rw [hempty, foldl_emplace_settled, updateParts_settled] at h
      exact h
    | false =>
      have h := s.foldl_set KeyedSet.emplace (map.toList.map fun x => (x.1, x.2.settled)) infos
      rw [hempty, foldl_emplace_settled] at h
      exact h
  unfold readSection
  rw [hfield]
  cases hnil : map.toList.isEmpty with
  | true =>
    rw [List.isEmpty_iff] at hnil
    rw [hnil, List.map_nil, List.foldl_nil, ← hnil] at hsections
    exact congrArg Except.ok hsections
  | false =>
    rw [if_pos rfl, ← hsections]
    exact hloop map.toList infos hmap

/-- What is read of infos that were written. -/
def restored (infos : TTLInfos) : TTLInfos where
  columnsTtl := settledMap infos.columnsTtl
  rowsWhereTtl := settledMap infos.rowsWhereTtl
  groupByTtl := settledMap infos.groupByTtl
  recompressionTtl := settledMap infos.recompressionTtl
  movesTtl := settledMap infos.movesTtl
  tableTtl := if infos.tableTtl.min = 0 then {} else infos.tableTtl.settled
  partMinTtl := infos.entriesMin
  partMaxTtl := infos.entriesMax

theorem readJson_eq (h : infos.Sane) : readJson infos.json {} = .ok infos.restored := by
  have hlookup : ∀ k, infos.json.field? k = ((jsonSection "columns" "name" infos.columnsTtl).lookup k).or
      ((jsonTable infos.tableTtl).lookup k |>.or ((jsonSection "moves" "expression" infos.movesTtl).lookup k |>.or
      ((jsonSection "recompression" "expression" infos.recompressionTtl).lookup k |>.or
      ((jsonSection "group_by" "expression" infos.groupByTtl).lookup k |>.or
      ((jsonSection "rows_where" "expression" infos.rowsWhereTtl).lookup k))))) := by
    intro k
    unfold json Json.field?
    simp only [List.lookup_append, Option.or_assoc]
  simp only [lookup_jsonSection, lookup_jsonTable] at hlookup
  have hcolumns : infos.json.field? "columns" = if infos.columnsTtl.toList.isEmpty = false then
      some (.arr (infos.columnsTtl.toList.map (jsonEntry "name"))) else none := (hlookup "columns").trans (by simp)
  have htable : infos.json.field? "table" = if infos.tableTtl.min ≠ 0 then some (.obj infos.tableTtl.jsonFields) else none :=
    (hlookup "table").trans (by simp)
  have hmoves : infos.json.field? "moves" = if infos.movesTtl.toList.isEmpty = false then
      some (.arr (infos.movesTtl.toList.map (jsonEntry "expression"))) else none := (hlookup "moves").trans (by simp)
  have hrecompression : infos.json.field? "recompression" = if infos.recompressionTtl.toList.isEmpty = false then
      some (.arr (infos.recompressionTtl.toList.map (jsonEntry "expression"))) else none := (hlookup "recompression").trans (by simp)
  have hgroupBy : infos.json.field? "group_by" = if infos.groupByTtl.toList.isEmpty = false then
      some (.arr (infos.groupByTtl.toList.map (jsonEntry "expression"))) else none := (hlookup "group_by").trans (by simp)
  have hrowsWhere : infos.json.field? "rows_where" = if infos.rowsWhereTtl.toList.isEmpty = false then
      some (.arr (infos.rowsWhereTtl.toList.map (jsonEntry "expression"))) else none := (hlookup "rows_where").trans (by simp)
  have hreadTable : ∀ infos' : TTLInfos, infos'.tableTtl = {} → readTable infos.json infos' =
      .ok (if infos.tableTtl.min = 0 then infos'
        else { infos' with tableTtl := infos.tableTtl.settled }.updatePartMinMaxTTL infos.tableTtl.min infos.tableTtl.max) := by
    intro infos' htableTtl
    unfold readTable
    rw [htable]
    by_cases hmin : infos.tableTtl.min = 0
    · rw [if_neg (by simpa using hmin), if_pos hmin]
    · rw [if_pos hmin, if_neg hmin]
      have hinfo := readTTLInfo_eq h.table [] fun k _ => rfl
      rw [List.nil_append] at hinfo
      dsimp only
      rw [hinfo]
      rfl
  -- the infos after each section
  let r₁ : TTLInfos := TTLSection.columns.set (TTLSection.updateParts {} infos.columnsTtl.toList) (settledMap infos.columnsTtl)
  let r₂ : TTLInfos :=
    if infos.tableTtl.min = 0 then r₁
    else { r₁ with tableTtl := infos.tableTtl.settled }.updatePartMinMaxTTL infos.tableTtl.min infos.tableTtl.max
  let r₃ : TTLInfos := TTLSection.moves.set r₂ (settledMap infos.movesTtl)
  let r₄ : TTLInfos := TTLSection.recompression.set r₃ (settledMap infos.recompressionTtl)
  let r₅ : TTLInfos := TTLSection.groupBy.set (TTLSection.updateParts r₄ infos.groupByTtl.toList) (settledMap infos.groupByTtl)
  let r₆ : TTLInfos := TTLSection.rowsWhere.set (TTLSection.updateParts r₅ infos.rowsWhereTtl.toList) (settledMap infos.rowsWhereTtl)
  have hsame : r₂.movesTtl = KeyedSet.empty ∧ r₂.recompressionTtl = KeyedSet.empty ∧ r₂.groupByTtl = KeyedSet.empty ∧
      r₂.rowsWhereTtl = KeyedSet.empty := by
    by_cases hmin : infos.tableTtl.min = 0
    · have heq : r₂ = r₁ := if_pos hmin
      rw [heq]
      exact ⟨rfl, rfl, rfl, rfl⟩
    · have heq : r₂ = _ := if_neg hmin
      rw [heq]
      exact ⟨rfl, rfl, rfl, rfl⟩
  have h₁ := readSection_eq .columns (Or.inl rfl) (h.of_mem .columns (by simp [TTLSection.all])) hcolumns true {} rfl
  have h₂ := hreadTable r₁ rfl
  have h₃ := readSection_eq .moves (Or.inr rfl) (h.of_mem .moves (by simp [TTLSection.all])) hmoves false r₂ hsame.1
  have h₄ := readSection_eq .recompression (Or.inr rfl) (h.of_mem .recompression (by simp [TTLSection.all])) hrecompression false
    r₃ hsame.2.1
  have h₅ := readSection_eq .groupBy (Or.inr rfl) (h.of_mem .groupBy (by simp [TTLSection.all])) hgroupBy true
    r₄ hsame.2.2.1
  have h₆ := readSection_eq .rowsWhere (Or.inr rfl) (h.of_mem .rowsWhere (by simp [TTLSection.all])) hrowsWhere true
    r₅ hsame.2.2.2
  have hread : readJson infos.json {} = .ok r₆ := by
    unfold readJson
    exact bind_of_ok h₁ (bind_of_ok h₂ (bind_of_ok h₃ (bind_of_ok h₄ (bind_of_ok h₅ h₆))))
  have hmin : ∀ (m : TTLInfoMap) (a : ℤ),
      (m.toList.map fun e => e.2.min).foldl earliest a = earliest a (KeyedMap.total earliest 0 TTLInfo.min m) :=
    fun m a => KeyedMap.foldl_eq_op a _
  have hmax : ∀ (m : TTLInfoMap) (a : ℤ),
      (m.toList.map fun e => e.2.max).foldl latest a = latest a (KeyedMap.total latest 0 TTLInfo.max m) :=
    fun m a => KeyedMap.foldl_eq_op a _
  have hpartMin : r₆.partMinTtl = infos.entriesMin := by
    have hr₂ : r₂.partMinTtl = earliest (earliest 0 (KeyedMap.total earliest 0 TTLInfo.min infos.columnsTtl)) infos.tableTtl.min := by
      by_cases htableMin : infos.tableTtl.min = 0
      · have heq : r₂ = r₁ := if_pos htableMin
        rw [heq, htableMin, @Std.LawfulRightIdentity.right_id ℤ ℤ earliest 0 _]
        exact hmin infos.columnsTtl 0
      · have heq : r₂ = _ := if_neg htableMin
        rw [heq]
        change earliest ((infos.columnsTtl.toList.map fun e => e.2.min).foldl earliest 0) infos.tableTtl.min = _
        rw [hmin]
    change (infos.rowsWhereTtl.toList.map fun e => e.2.min).foldl earliest
      ((infos.groupByTtl.toList.map fun e => e.2.min).foldl earliest r₂.partMinTtl) = _
    rw [hmin, hmin, hr₂]
    exact regroup_read
  have hpartMax : r₆.partMaxTtl = infos.entriesMax := by
    have hr₂ : r₂.partMaxTtl = latest (latest 0 (KeyedMap.total latest 0 TTLInfo.max infos.columnsTtl)) infos.tableTtl.max := by
      by_cases htableMin : infos.tableTtl.min = 0
      · have heq : r₂ = r₁ := if_pos htableMin
        rw [heq, h.table.max_eq_zero htableMin, @Std.LawfulRightIdentity.right_id ℤ ℤ latest 0 _]
        exact hmax infos.columnsTtl 0
      · have heq : r₂ = _ := if_neg htableMin
        rw [heq]
        change latest ((infos.columnsTtl.toList.map fun e => e.2.max).foldl latest 0) infos.tableTtl.max = _
        rw [hmax]
    change (infos.rowsWhereTtl.toList.map fun e => e.2.max).foldl latest
      ((infos.groupByTtl.toList.map fun e => e.2.max).foldl latest r₂.partMaxTtl) = _
    rw [hmax, hmax, hr₂]
    exact regroup_read
  have htableRead : r₆.tableTtl = infos.restored.tableTtl := by
    change r₂.tableTtl = if infos.tableTtl.min = 0 then {} else infos.tableTtl.settled
    by_cases htableMin : infos.tableTtl.min = 0
    · have heq : r₂ = r₁ := if_pos htableMin
      rw [heq, if_pos htableMin]
      rfl
    · have heq : r₂ = _ := if_neg htableMin
      rw [heq, if_neg htableMin]
      rfl
  have hcolumnsRead : r₆.columnsTtl = settledMap infos.columnsTtl := by
    change r₂.columnsTtl = _
    by_cases htableMin : infos.tableTtl.min = 0
    · have heq : r₂ = r₁ := if_pos htableMin
      rw [heq]
      rfl
    · have heq : r₂ = _ := if_neg htableMin
      rw [heq]
      rfl
  rw [hread]
  have heta : r₆ = ⟨r₆.columnsTtl, r₆.tableTtl, r₆.partMinTtl, r₆.partMaxTtl, settledMap infos.rowsWhereTtl, settledMap infos.movesTtl,
      settledMap infos.recompressionTtl, settledMap infos.groupByTtl⟩ := rfl
  rw [heta, hcolumnsRead, htableRead, hpartMin, hpartMax]
  rfl

variable {parse : String → Except String Json}

/-- **Reading what was written**, if the parser takes the text for the value. -/
theorem load_write (h : infos.Sane) (hparse : parse infos.json.text = .ok infos.json) :
    load parse infos.write = .ok infos.restored := by
  have hunbroken : ∀ c ∈ infos.json.text.toList, (c = '\t' || c = '\n') = false := by
    intro c hc
    obtain ⟨htab, hfeed⟩ := unbroken_json infos c hc
    rw [decide_eq_false htab, decide_eq_false hfeed]
    rfl
  have hread : Takes (read parse {}) infos.json.text.toList infos.restored [] := by
    unfold read
    refine Takes.bind_nil (Takes.takeUntil hunbroken fun c hc => absurd hc (by simp)) ?_
    refine Takes.bind_nil Takes.eof_nil ?_
    rw [bind_of_ok hparse (readJson_eq h)]
    exact Takes.pure _ _
  have hload : Takes (TextReader.assertString "ttl format version: 1\n" >>= fun _ => read parse {}) infos.write.toList infos.restored [] := by
    rw [write_eq_text h, String.toList_append]
    exact (Takes.assertString _ _).bind hread
  unfold Takes at hload
  rw [List.append_nil] at hload
  unfold load
  rw [StateT.run'_eq, hload]
  rfl

/-! ## What is kept -/

theorem sameMap_settled (map : TTLInfoMap) : SameMap (settledMap map) map := by
  unfold SameMap settledMap
  rw [KeyedSet.toList_map, List.forall₂_map_left_iff, List.forall₂_same]
  exact fun x _ => ⟨rfl, rfl, rfl, rfl⟩

theorem hasNonFinishedTTL_settled (map : TTLInfoMap) : hasNonFinishedTTL (settledMap map) = hasNonFinishedTTL map := by
  unfold hasNonFinishedTTL settledMap
  rw [KeyedSet.toList_map, List.any_map]
  rfl

theorem restores_iff (h : infos.Folded) :
    Restores infos.restored infos ↔ infos.tableTtl.min ≠ 0 ∨ infos.tableTtl.finished = false := by
  constructor
  · intro hrestores
    by_contra hnot
    rw [not_or, not_not, Bool.not_eq_false] at hnot
    obtain ⟨hmin, hfinished⟩ := hnot
    have hflag := hrestores.table.2.2
    change (if infos.tableTtl.min = 0 then ({} : TTLInfo) else infos.tableTtl.settled).finished = _ at hflag
    rw [if_pos hmin, hfinished] at hflag
    cases hflag
  · intro hcases
    have htable : SameInfo infos.restored.tableTtl infos.tableTtl := by
      change SameInfo (if infos.tableTtl.min = 0 then ({} : TTLInfo) else infos.tableTtl.settled) _
      by_cases hmin : infos.tableTtl.min = 0
      · rw [if_pos hmin]
        exact ⟨hmin.symm, (h.sane.table.max_eq_zero hmin).symm, (hcases.resolve_left (not_not.2 hmin)).symm⟩
      · rw [if_neg hmin]
        exact ⟨rfl, rfl, rfl⟩
    refine ⟨htable, sameMap_settled _, sameMap_settled _, sameMap_settled _, sameMap_settled _, sameMap_settled _, h.partMin.symm,
      h.partMax.symm, ?_⟩
    unfold hasAnyNonFinishedTTLs
    rw [htable.2.2]
    change (_ || hasNonFinishedTTL (settledMap _) || hasNonFinishedTTL (settledMap _) || hasNonFinishedTTL (settledMap _) ||
      hasNonFinishedTTL (settledMap _) || hasNonFinishedTTL (settledMap _)) = _
    rw [hasNonFinishedTTL_settled, hasNonFinishedTTL_settled, hasNonFinishedTTL_settled, hasNonFinishedTTL_settled,
      hasNonFinishedTTL_settled]

theorem min_foldl_combine (l : List TTLInfos) (info : TTLInfo) :
    ((l.map fun infos => infos.tableTtl.settled).foldl TTLInfo.combine info).min = 0 ↔
      info.min = 0 ∧ ∀ infos ∈ l, infos.tableTtl.min = 0 := by
  induction l generalizing info with
  | nil => simp
  | cons infos l ih =>
    rw [List.map_cons, List.foldl_cons, ih, List.forall_mem_cons]
    change earliest info.min infos.tableTtl.min = 0 ∧ _ ↔ _
    rw [earliest_eq_zero, and_assoc]

theorem finished_foldl_combine (l : List TTLInfos) (info : TTLInfo) :
    ((l.map fun infos => infos.tableTtl.settled).foldl TTLInfo.combine info).ttlFinished.getD true = true ↔
      info.ttlFinished.getD true = true ∧ ∀ infos ∈ l, infos.tableTtl.finished = true := by
  induction l generalizing info with
  | nil => simp
  | cons infos l ih =>
    rw [List.map_cons, List.foldl_cons, ih, List.forall_mem_cons]
    have hmerge : (Option.merge (· && ·) info.ttlFinished (some infos.tableTtl.finished)).getD true = true ↔
        info.ttlFinished.getD true = true ∧ infos.tableTtl.finished = true := by
      cases info.ttlFinished <;> simp
    exact (and_congr_left' hmerge).trans and_assoc

theorem table_of_foldOf {l : List TTLInfos} {x : TTLInfos} (hx : FoldOf update {} l x) (hl : ∀ infos ∈ l, infos.Sane) :
    (x.tableTtl.min ≠ 0 ↔ ∃ infos ∈ l, infos.tableTtl.min ≠ 0) ∧
      (x.tableTtl.finished = false ↔ ∃ infos ∈ l, infos.tableTtl.finished = false) := by
  obtain ⟨-, -, hsettled, htable⟩ := hx.observed TTLInfo.combine_default observes_table hl
  have hmin := min_foldl_combine l {}
  have hfinished := finished_foldl_combine l {}
  rw [← htable] at hmin hfinished
  have hsame : x.tableTtl.ttlFinished.getD true = x.tableTtl.finished := by
    have hflag : (some x.tableTtl.finished : Option Bool) = x.tableTtl.ttlFinished := congrArg TTLInfo.ttlFinished hsettled
    rw [← hflag]
    rfl
  rw [hsame] at hfinished
  constructor
  · rw [ne_eq, hmin]
    simp
  · rw [← Bool.not_eq_true, hfinished]
    simp

/-- **TTL infos are merged and persisted faithfully if and only if a part has a table TTL with a time, or one that is not
finished.** -/
theorem persist_iff {l m : List TTLInfos} {x y : TTLInfos} (hl : ∀ infos ∈ l, infos.Filled) (hx : FoldOf update {} l x)
    (hy : FoldOf update {} m y) (hperm : l.Perm m) (hparse : parse x.json.text = .ok x.json) :
    x = y ∧ ∃ z, load parse x.write = .ok z ∧
      (Restores z x ↔ (∃ infos ∈ l, infos.tableTtl.min ≠ 0) ∨ ∃ infos ∈ l, infos.tableTtl.finished = false) := by
  have hsane : ∀ infos ∈ l, infos.Sane := fun infos hinfos => (hl infos hinfos).sane
  have hfolded := folded_of_foldOf hx hsane
  obtain ⟨hmin, hfinished⟩ := table_of_foldOf hx hsane
  refine ⟨fold_unique hx hy hsane hperm, x.restored, load_write hfolded.sane hparse, ?_⟩
  rw [restores_iff hfolded, hmin, hfinished]

/-- A part with a table TTL, and one with an expired column TTL. -/
def freshPart : TTLInfos := { tableTtl := ⟨5, 7, none⟩ }

def expiredColumn : TTLInfos := { columnsTtl := KeyedSet.emplace KeyedSet.empty ("c", ⟨3, 3, some true⟩) }

theorem filled_parts : ∀ infos ∈ [freshPart, expiredColumn], infos.Filled := by
  have hempty : ∀ x ∈ (KeyedSet.empty : TTLInfoMap), x.2.Filled := fun x hx => absurd hx (KeyedSet.notMem_empty x)
  intro infos hinfos
  simp only [List.mem_cons, List.not_mem_nil, or_false] at hinfos
  rcases hinfos with rfl | rfl
  · exact ⟨⟨[5, 7], none, by decide, rfl⟩, hempty, hempty, hempty, hempty, hempty⟩
  · refine ⟨⟨[], none, by decide, rfl⟩, fun x hx => ?_, hempty, hempty, hempty, hempty⟩
    rcases KeyedSet.mem_emplace.1 hx with hx | ⟨rfl, -⟩
    · exact absurd hx (KeyedSet.notMem_empty x)
    · exact ⟨[3], some true, by decide, rfl⟩

/-- The text of both together, and its value. -/
def parseBoth (s : String) : Except String Json :=
  if s = "\x7b\"columns\":[\x7b\"name\":\"c\",\"min\":3,\"max\":3,\"finished\":1\x7d],\"table\":\x7b\"min\":5,\"max\":7,\"finished\":0\x7d\x7d" then
    .ok (.obj [("columns", .arr [.obj [("name", .str "c"), ("min", .num 3), ("max", .num 3), ("finished", .num 1)]]),
      ("table", .obj [("min", .num 5), ("max", .num 7), ("finished", .num 0)])])
  else .error "JSON: not expected"

theorem persist_iff_both :
    update (update {} freshPart) expiredColumn = update (update {} expiredColumn) freshPart ∧
      ∃ z, load parseBoth (update (update {} freshPart) expiredColumn).write = .ok z ∧
        (Restores z (update (update {} freshPart) expiredColumn) ↔
          (∃ infos ∈ [freshPart, expiredColumn], infos.tableTtl.min ≠ 0) ∨
            ∃ infos ∈ [freshPart, expiredColumn], infos.tableTtl.finished = false) := by
  refine persist_iff filled_parts ((FoldOf.single freshPart).snoc expiredColumn) ((FoldOf.single expiredColumn).snoc freshPart)
    (List.Perm.swap _ _ _) ?_
  have htext : (update (update {} freshPart) expiredColumn).json.text =
      "\x7b\"columns\":[\x7b\"name\":\"c\",\"min\":3,\"max\":3,\"finished\":1\x7d],\"table\":\x7b\"min\":5,\"max\":7,\"finished\":0\x7d\x7d" := by
    decide +kernel
  unfold parseBoth
  rw [if_pos htext]
  rfl

/-- A part whose rows have all expired: the table TTL has no time and is finished. -/
def expiredTable : TTLInfos := { tableTtl := ⟨0, 0, some true⟩ }

/-- The text of an empty object. -/
def parseEmpty (s : String) : Except String Json := if s = "\x7b\x7d" then .ok (.obj []) else .error "JSON: not expected"

/-- The flag is lost, and the part has a TTL that is not finished again. -/
theorem expiredTable_lost : expiredTable.Filled ∧ parseEmpty (update {} expiredTable).json.text = .ok (update {} expiredTable).json ∧
    ∃ z, load parseEmpty (update {} expiredTable).write = .ok z ∧ ¬ Restores z (update {} expiredTable) ∧
      (update {} expiredTable).hasAnyNonFinishedTTLs = false ∧ z.hasAnyNonFinishedTTLs = true := by
  have hempty : ∀ x ∈ (KeyedSet.empty : TTLInfoMap), x.2.Filled := fun x hx => absurd hx (KeyedSet.notMem_empty x)
  have hfilled : expiredTable.Filled := ⟨⟨[], some true, by decide, rfl⟩, hempty, hempty, hempty, hempty, hempty⟩
  have htext : (update {} expiredTable).json.text = "\x7b\x7d" := by decide +kernel
  have hparse : parseEmpty (update {} expiredTable).json.text = .ok (update {} expiredTable).json := by
    unfold parseEmpty
    rw [if_pos htext]
    rfl
  have hfolded := folded_of_foldOf (FoldOf.single expiredTable) (by
    intro infos hinfos
    rw [List.mem_singleton.1 hinfos]
    exact hfilled.sane)
  refine ⟨hfilled, hparse, (update {} expiredTable).restored, load_write hfolded.sane hparse, ?_, rfl, rfl⟩
  rw [restores_iff hfolded]
  rintro (hmin | hfinished)
  · exact hmin rfl
  · cases hfinished

end TTLInfos

end MergeTree
