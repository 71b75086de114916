import MergeTree.Proof.EntryText

/-!
# An entry is read back from its text

`LogEntryData.written` keeps of an entry the fields that `writeText` writes for its type.

* `takes_header`, `takes_body` and `takes_tail` follow the three parts of the text.
* `parse_writeText`: what is parsed is `written`, and nothing is left over.
-/

namespace MergeTree

open IntText NumberText EntryText TextReader

variable {rest : List Char}

namespace LogEntryData

/-- **What the text holds of an entry**: the fields that are written for its type. -/
def written (e : LogEntryData) : LogEntryData :=
  let common : LogEntryData := {
    logEntryId := e.logEntryId
    type := e.type
    sourceReplica := e.sourceReplica
    newPartFormat := e.newPartFormat
    deduplicationBlockIds := e.deduplicationBlockIds
    createTime := e.createTime
    quorum := e.quorum }
  match e.type with
  | .empty | .syncPinnedPartUuids => common
  | .getPart => { common with newPartName := e.newPartName }
  | .clonePartFromShard => { common with newPartName := e.newPartName, sourceShard := e.sourceShard }
  | .attachPart => { common with newPartName := e.newPartName, partChecksum := e.partChecksum }
  | .mergeParts => { common with
      sourceParts := e.sourceParts
      newPartName := e.newPartName
      deduplicate := e.deduplicate
      mergeType := e.mergeType
      newPartUuid := e.newPartUuid
      deduplicateByColumns := e.deduplicateByColumns
      cleanup := e.cleanup
      patchParts := e.patchParts }
  | .dropRange | .dropPart => { common with newPartName := e.newPartName, detach := e.detach }
  | .clearColumn => { common with columnName := e.columnName, newPartName := e.newPartName }
  | .clearIndex => { common with indexName := e.indexName, newPartName := e.newPartName }
  | .replaceRange => { common with replaceRangeEntry := e.replaceRangeEntry }
  | .mutatePart => { common with
      -- one source part has a place in the text
      sourceParts := e.sourceParts.take 1
      newPartName := e.newPartName
      newPartUuid := e.newPartUuid
      alterVersion := e.alterVersion }
  | .alterMetadata => { common with
      alterVersion := e.alterVersion
      haveMutation := e.haveMutation
      columnsStr := e.columnsStr
      metadataStr := e.metadataStr }

/-! ## Values in front of a newline -/

/-- A value that is read up to a newline, in front of literal text that starts with one. -/
theorem takes_before {α β : Type} {r : TextReader α} {f : α → TextReader β} {text text' rest : List Char} {a : α}
    {b : β} {s : String} (hs : s.toList.head? = some '\n') (hr : ∀ tail, Takes r text a ("\n".toList ++ tail))
    (hf : Takes (f a) text' b rest) :
    Takes (r >>= fun x => assertString s >>= fun _ => f x) (text ++ (s.toList ++ text')) b rest := by
  obtain ⟨t, ht⟩ : ∃ t, s.toList = "\n".toList ++ t := by
    cases hlist : s.toList with
    | nil =>
      rw [hlist] at hs
      cases hs
    | cons c t =>
      rw [hlist] at hs
      obtain rfl : c = '\n' := Option.some.inj hs
      exact ⟨t, by simp⟩
  refine Takes.bind ?_ ((Takes.assertString s _).bind hf)
  have hvalue := hr (t ++ text' ++ rest)
  rw [ht]
  simp only [List.append_assoc] at hvalue ⊢
  exact hvalue

/-! ## What the header says -/

theorem writtenFormatVersion_bounds (e : LogEntryData) :
    formatWithDeduplicate ≤ e.writtenFormatVersion ∧ e.writtenFormatVersion < formatLast ∧
      (formatWithLogEntryId ≤ e.writtenFormatVersion ↔ e.logEntryId ≠ "") := by
  unfold writtenFormatVersion formatWithDeduplicate formatWithDeduplicateByColumns formatWithUuid formatWithLogEntryId
    formatLast
  dsimp only
  split <;> split <;> split <;> simp_all

theorem splitBlockIds_intercalate {ids : List String} (h : ∀ id ∈ ids, id ≠ "" ∧ ',' ∉ id.toList) :
    splitBlockIds (String.intercalate "," ids) = ids := by
  unfold splitBlockIds
  rw [String.toList_intercalate]
  cases ids with
  | nil => decide
  | cons id ids =>
    have hcomma : ",".toList = [','] := by simp
    have hnot : ∀ l ∈ (id :: ids).map String.toList, ',' ∉ l := by
      intro l hl
      obtain ⟨x, hx, rfl⟩ := List.mem_map.1 hl
      exact (h x hx).2
    have hnonempty : ∀ l ∈ (id :: ids).map String.toList, (decide (l ≠ []) : Bool) = true := by
      intro l hl
      obtain ⟨x, hx, rfl⟩ := List.mem_map.1 hl
      simpa using (h x hx).1
    rw [hcomma, List.splitOn_intercalate _ hnot (by simp), List.filter_eq_self.2 hnonempty, List.map_map]
    simp

/-- What is read in front of the type. -/
def headed (e : LogEntryData) : LogEntryData where
  logEntryId := e.logEntryId
  sourceReplica := e.sourceReplica
  deduplicationBlockIds := e.deduplicationBlockIds
  createTime := e.createTime

variable [EntryText]

/-- **An entry that a replica writes**, in a table with the partition format `v`: its names need no
escape, its numbers fit their types, and its type agrees with its part name. -/
structure WellFormed (v : ℕ) (e : LogEntryData) : Prop where
  type : e.type ≠ .empty
  createTime : e.createTime ≠ 0 ∧ Representable e.createTime
  sourceReplica : Plain e.sourceReplica
  deduplicationBlockIds : ∀ id ∈ e.deduplicationBlockIds, id ≠ "" ∧ ',' ∉ id.toList
  newPartName : Plain e.newPartName
  sourceParts : ∀ s ∈ e.sourceParts, Plain s
  partType : e.newPartFormat.partType ≠ .unknown
  storageType : e.newPartFormat.storageType ≠ .unknown
  quorum : e.quorum < 2 ^ 64
  alterVersion : IntType.int32.Holds e.alterVersion
  clone : e.type = .clonePartFromShard → Plain e.sourceShard
  merge : e.type = .mergeParts → "into" ∉ e.sourceParts ∧ (∀ s ∈ e.patchParts, Plain s) ∧ e.patchParts.length < 2 ^ 64
  drop : e.type = .dropRange ∨ e.type = .dropPart → ∃ info, fromPartName e.newPartName v = .ok info ∧
    (e.type = .dropRange ↔ info.isFakeDropRangePart)
  replaceRange : e.type = .replaceRange → ∃ r, e.replaceRangeEntry = some r ∧ Plain r.dropRangePartName ∧
    IntType.int32.Holds r.columnsVersion
  alter : e.type = .alterMetadata → e.columnsStr.toList.length < 2 ^ 64 ∧ e.metadataStr.toList.length < 2 ^ 64

variable [LawfulEntryText] {v : ℕ} {e : LogEntryData}

theorem takes_number {τ : IntType} {n : ℤ} (h : τ.Holds n) (rest : List Char) :
    Takes (readIntText τ) (writeIntText n).toList n ("\n".toList ++ rest) := by
  refine LawfulNumberText.takes_int τ n _ h ?_
  intro c hc
  obtain rfl : '\n' = c := Option.some.inj hc
  decide

/-! ## The header -/

theorem takes_logEntryId (e e' : LogEntryData) (he : e'.logEntryId = "") (rest : List Char) :
    Takes (readLogEntryId e.writtenFormatVersion e')
      (if e.writtenFormatVersion ≥ formatWithLogEntryId then "log_entry_id: " ++ writeEscaped e.logEntryId ++ "\n"
        else "").toList
      { e' with logEntryId := e.logEntryId } rest := by
  obtain ⟨_, _, hid⟩ := writtenFormatVersion_bounds e
  unfold readLogEntryId
  by_cases h : e.logEntryId = ""
  · have hold : ¬ formatWithLogEntryId ≤ e.writtenFormatVersion := fun hle => hid.1 hle h
    have hsame : { e' with logEntryId := e.logEntryId } = e' := by rw [h, ← he]
    rw [if_neg (by omega), if_neg hold, hsame]
    exact Takes.pure e' rest
  · have hnew := hid.2 h
    rw [if_pos (by omega), if_pos hnew]
    simp only [String.toList_append, List.append_assoc]
    refine (Takes.assertString _ _).bind ?_
    exact Takes.bind (LawfulEntryText.takes_escaped _ _) ((Takes.assertString "\n" rest).bind_nil (Takes.pure _ rest))

/-- **The lines in front of the type are read back.** -/
theorem takes_header (h : e.WellFormed v) (now : ℤ) (rest : List Char) :
    Takes (readHeader {}) (e.writeHeader now).toList ((e.writtenFormatVersion : ℤ), e.headed) rest := by
  obtain ⟨hlow, hhigh, _⟩ := writtenFormatVersion_bounds e
  unfold formatWithDeduplicate at hlow
  unfold formatLast at hhigh
  have hvalid : ¬ ((e.writtenFormatVersion : ℤ) < 1 ∨ (e.writtenFormatVersion : ℤ) ≥ formatLast) := by
    unfold formatLast
    omega
  have hbyte : IntType.uint8.Holds e.writtenFormatVersion := by
    constructor
    · exact Int.natCast_nonneg _
    · change (e.writtenFormatVersion : ℤ) ≤ 2 ^ 8 - 1
      omega
  have htime : (e.writtenFormatVersion : ℤ) ≥ formatWithCreateTime := by
    unfold formatWithCreateTime
    omega
  have hids : (e.writtenFormatVersion : ℤ) ≥ formatWithBlockId := by
    unfold formatWithBlockId
    omega
  obtain ⟨hlocal, hmake⟩ := h.createTime.2
  have hsplit := splitBlockIds_intercalate h.deduplicationBlockIds
  have hid := takes_logEntryId e { e.headed with logEntryId := "" } rfl rest
  unfold writeHeader readHeader
  rw [if_pos h.createTime.1]
  simp only [String.toList_append, List.append_assoc]
  refine (Takes.assertString _ _).bind ?_
  refine takes_before (by decide) (takes_number hbyte) ?_
  rw [if_neg hvalid]
  -- the lines of the newer versions are all there
  unfold readCreateTime readBlockIds
  simp only [if_pos htime, if_pos hids, bind_assoc, pure_bind]
  refine (Takes.assertString _ _).bind ?_
  refine takes_before (by decide) (LawfulEntryText.takes_dateTime _ hlocal) ?_
  refine (Takes.assertString _ _).bind ?_
  refine takes_before (by decide) (LawfulEntryText.takes_string _ h.sourceReplica) ?_
  refine (Takes.assertString _ _).bind ?_
  refine takes_before (by decide) (LawfulEntryText.takes_escaped _) ?_
  rw [hmake, hsplit]
  exact hid.bind_pure

/-! ## The optional lines at the end -/

/-- The optional lines start with a letter that no optional line of a body has. -/
def TailStart (rest : List Char) : Prop := ∀ c ∈ rest.head?, c = 'p' ∨ c = 's' ∨ c = 'q'

theorem takes_partType (h : e.newPartFormat.partType ≠ .unknown) (e' : LogEntryData) (hrest : rest.head? ≠ some 'p') :
    Takes (readPartType e')
      (if e.newPartFormat.partType ≠ .wide ∧ e.newPartFormat.partType ≠ .unknown then
        "part_type: " ++ e.newPartFormat.partType.toString ++ "\n" else "").toList
      { e' with newPartFormat := { e'.newPartFormat with partType := e.newPartFormat.partType } } rest := by
  unfold readPartType
  cases htype : e.newPartFormat.partType with
  | unknown => exact absurd htype h
  | wide =>
    rw [if_neg (by decide)]
    refine Takes.nil_bind (Takes.checkString_ne (by decide) ?_) (Takes.pure _ rest)
    exact fun heq => hrest heq.symm
  | compact =>
    have hplain : Plain "Compact" := by simp [Plain]
    rw [if_pos (by decide)]
    simp only [String.toList_append, List.append_assoc]
    refine Takes.bind (Takes.checkString _ _) ?_
    refine Takes.bind (LawfulEntryText.takes_string _ hplain rest) ?_
    exact (Takes.assertString "\n" rest).bind_nil (Takes.pure _ rest)

theorem takes_storageType (h : e.newPartFormat.storageType ≠ .unknown) (e' : LogEntryData) (hrest : rest.head? ≠ some 's') :
    Takes (readStorageType e')
      (if e.newPartFormat.storageType ≠ .full ∧ e.newPartFormat.storageType ≠ .unknown then
        "storage_type: " ++ e.newPartFormat.storageType.toString ++ "\n" else "").toList
      { e' with newPartFormat := { e'.newPartFormat with storageType := e.newPartFormat.storageType } } rest := by
  unfold readStorageType
  cases htype : e.newPartFormat.storageType with
  | unknown => exact absurd htype h
  | full =>
    rw [if_neg (by decide)]
    refine Takes.nil_bind (Takes.checkString_ne (by decide) ?_) (Takes.pure _ rest)
    exact fun heq => hrest heq.symm
  | packed =>
    have hplain : Plain "Packed" := by simp [Plain]
    rw [if_pos (by decide)]
    simp only [String.toList_append, List.append_assoc]
    refine Takes.bind (Takes.checkString _ _) ?_
    refine Takes.bind (LawfulEntryText.takes_string _ hplain rest) ?_
    exact (Takes.assertString "\n" rest).bind_nil (Takes.pure _ rest)

theorem takes_quorum (h : e.quorum < 2 ^ 64) (e' : LogEntryData) (he : e'.quorum = 0) :
    Takes (readQuorum e') (if e.quorum ≠ 0 then "quorum: " ++ writeIntText e.quorum ++ "\n" else "").toList
      { e' with quorum := e.quorum } [] := by
  unfold readQuorum
  by_cases hzero : e.quorum = 0
  · have hsame : { e' with quorum := e.quorum } = e' := by rw [hzero, ← he]
    rw [if_neg (not_not.2 hzero), hsame]
    exact Takes.nil_bind Takes.eof_nil (Takes.pure e' [])
  · rw [if_pos hzero]
    simp only [String.toList_append, List.append_assoc]
    have hstart : "quorum: ".toList ++ ((writeIntText e.quorum).toList ++ "\n".toList) ++ [] =
        'q' :: ("uorum: ".toList ++ ((writeIntText e.quorum).toList ++ "\n".toList) ++ []) := by simp
    refine Takes.nil_bind (a := false) ?_ ?_
    · rw [hstart]
      exact Takes.eof_cons 'q' _
    · refine (Takes.assertString _ _).bind ?_
      refine Takes.bind (takes_number (IntType.holds_uint64 h) []) ?_
      exact (Takes.assertString "\n" []).bind_nil (Takes.pure _ [])

omit [LawfulEntryText] in
theorem tailStart_writeTail (e : LogEntryData) : TailStart e.writeTail.toList := by
  intro c hc
  unfold writeTail at hc
  simp only [String.toList_append] at hc
  split at hc
  · left
    simpa using hc.symm
  · split at hc
    · right; left
      simpa using hc.symm
    · split at hc
      · right; right
        simpa using hc.symm
      · cases hc

theorem takes_tail (h : e.WellFormed v) (e' : LogEntryData) (he : e'.quorum = 0) :
    Takes (readTail e') e.writeTail.toList
      { e' with newPartFormat := e.newPartFormat, quorum := e.quorum } [] := by
  unfold readTail writeTail
  simp only [String.toList_append, List.append_assoc]
  refine Takes.bind (takes_partType h.partType e' ?_) (Takes.bind (takes_storageType h.storageType _ ?_) ?_)
  · split <;> split <;> simp
  · split <;> simp
  · exact takes_quorum h.quorum _ he

/-! ## Bodies without optional lines -/

/-- What is read up to the optional lines at the end. -/
def throughBody (e : LogEntryData) : LogEntryData := { e.written with newPartFormat := {}, quorum := 0 }

/-- The body is written, and read back in front of `rest`: first the line of its type, then its
fields with a newline behind them. -/
def BodyReads (v : ℕ) (e : LogEntryData) (rest : List Char) : Prop :=
  ∃ body typeStr text, e.writeBody = .ok body ∧ Plain typeStr ∧
    body.toList ++ "\n".toList = typeStr.toList ++ ("\n".toList ++ text) ∧
    Takes (readBodyLines v e.writtenFormatVersion typeStr e.headed) text e.throughBody rest

omit [LawfulEntryText] in
theorem BodyReads.of_fields (typeStr : String) (text : List Char) {body : String} (hwrite : e.writeBody = .ok body)
    (htext : body.toList = typeStr.toList ++ ("\n".toList ++ text)) (hplain : Plain typeStr)
    (hread : Takes (readBody v e.writtenFormatVersion typeStr e.headed) text (e.throughBody, false)
      ("\n".toList ++ rest)) : BodyReads v e rest := by
  refine ⟨body, typeStr, text ++ "\n".toList, hwrite, hplain, ?_, ?_⟩
  · rw [htext]
    simp only [List.append_assoc]
  · unfold readBodyLines
    exact Takes.bind hread ((Takes.assertString "\n" rest).bind_nil (Takes.pure _ rest))

omit [LawfulEntryText] in
theorem BodyReads.of_options (typeStr : String) (text : List Char) {body : String} (hwrite : e.writeBody = .ok body)
    (htext : body.toList = typeStr.toList ++ ("\n".toList ++ text)) (hplain : Plain typeStr)
    (hread : Takes (readBody v e.writtenFormatVersion typeStr e.headed) (text ++ "\n".toList)
      (e.throughBody, true) rest) : BodyReads v e rest := by
  refine ⟨body, typeStr, text ++ "\n".toList, hwrite, hplain, ?_, ?_⟩
  · rw [htext]
    simp only [List.append_assoc]
  · unfold readBodyLines
    exact hread.bind_nil (Takes.pure _ rest)

theorem bodyReads_get (h : e.WellFormed v) (htype : e.type = .getPart) (rest : List Char) : BodyReads v e rest := by
  have hwrite : e.writeBody = .ok ("get\n" ++ e.newPartName) := by simp only [writeBody, htype]
  have hread : e.throughBody = { e.headed with type := .getPart, newPartName := e.newPartName } := by
    simp only [throughBody, written, headed, htype]
  refine BodyReads.of_fields "get" e.newPartName.toList hwrite (by simp) (by simp [Plain]) ?_
  rw [hread]
  exact Takes.bind_pure (LawfulEntryText.takes_string _ h.newPartName rest)

theorem bodyReads_clone (h : e.WellFormed v) (htype : e.type = .clonePartFromShard) (rest : List Char) :
    BodyReads v e rest := by
  have hwrite : e.writeBody = .ok ("clone_part_from_shard\n" ++ e.newPartName ++ "\n" ++ "source_shard: " ++
      e.sourceShard) := by simp only [writeBody, htype]
  have hread : e.throughBody = { e.headed with
      type := .clonePartFromShard, newPartName := e.newPartName, sourceShard := e.sourceShard } := by
    simp only [throughBody, written, headed, htype]
  refine BodyReads.of_fields "clone_part_from_shard"
    (e.newPartName.toList ++ ("\nsource_shard: ".toList ++ e.sourceShard.toList)) hwrite (by simp) (by simp [Plain]) ?_
  rw [hread]
  refine takes_before (by simp) (LawfulEntryText.takes_string _ h.newPartName) ?_
  exact Takes.bind_pure (LawfulEntryText.takes_string _ (h.clone htype) rest)

theorem bodyReads_attach (h : e.WellFormed v) (htype : e.type = .attachPart) (hchecksum : Plain e.partChecksum)
    (rest : List Char) :
    BodyReads v e rest := by
  have hwrite : e.writeBody = .ok ("attach\n" ++ e.newPartName ++ "\n" ++ "part_checksum: " ++ e.partChecksum) := by
    simp only [writeBody, htype]
  have hread : e.throughBody = { e.headed with
      type := .attachPart, newPartName := e.newPartName, partChecksum := e.partChecksum } := by
    simp only [throughBody, written, headed, htype]
  refine BodyReads.of_fields "attach"
    (e.newPartName.toList ++ ("\npart_checksum: ".toList ++ e.partChecksum.toList)) hwrite (by simp) (by simp [Plain]) ?_
  rw [hread]
  refine takes_before (by simp) (LawfulEntryText.takes_string _ h.newPartName) ?_
  exact Takes.bind_pure (LawfulEntryText.takes_string _ hchecksum rest)

theorem bodyReads_clearColumn (h : e.WellFormed v) (htype : e.type = .clearColumn) (rest : List Char) :
    BodyReads v e rest := by
  have hwrite : e.writeBody = .ok ("clear_column\n" ++ writeEscaped e.columnName ++ "\nfrom\n" ++ e.newPartName) := by
    simp only [writeBody, htype]
  have hread : e.throughBody = { e.headed with
      type := .clearColumn, columnName := e.columnName, newPartName := e.newPartName } := by
    simp only [throughBody, written, headed, htype]
  refine BodyReads.of_fields "clear_column"
    ((writeEscaped e.columnName).toList ++ ("\nfrom\n".toList ++ e.newPartName.toList)) hwrite (by simp) (by simp [Plain]) ?_
  rw [hread]
  refine takes_before (by simp) (LawfulEntryText.takes_escaped _) ?_
  exact Takes.bind_pure (LawfulEntryText.takes_string _ h.newPartName rest)

theorem bodyReads_clearIndex (h : e.WellFormed v) (htype : e.type = .clearIndex) (rest : List Char) :
    BodyReads v e rest := by
  have hwrite : e.writeBody = .ok ("clear_index\n" ++ writeEscaped e.indexName ++ "\nfrom\n" ++ e.newPartName) := by
    simp only [writeBody, htype]
  have hread : e.throughBody = { e.headed with
      type := .clearIndex, indexName := e.indexName, newPartName := e.newPartName } := by
    simp only [throughBody, written, headed, htype]
  refine BodyReads.of_fields "clear_index"
    ((writeEscaped e.indexName).toList ++ ("\nfrom\n".toList ++ e.newPartName.toList)) hwrite (by simp) (by simp [Plain]) ?_
  rw [hread]
  refine takes_before (by simp) (LawfulEntryText.takes_escaped _) ?_
  exact Takes.bind_pure (LawfulEntryText.takes_string _ h.newPartName rest)

omit [LawfulEntryText] in
theorem bodyReads_sync (htype : e.type = .syncPinnedPartUuids) (rest : List Char) : BodyReads v e rest := by
  have hwrite : e.writeBody = .ok "sync_pinned_part_uuids\n" := by simp only [writeBody, htype]
  have hread : e.throughBody = { e.headed with type := .syncPinnedPartUuids } := by
    simp only [throughBody, written, headed, htype]
  refine BodyReads.of_fields "sync_pinned_part_uuids" [] hwrite (by simp) (by simp [Plain]) ?_
  rw [hread]
  exact Takes.pure _ _

theorem bodyReads_drop (h : e.WellFormed v) (htype : e.type = .dropRange ∨ e.type = .dropPart) (rest : List Char) :
    BodyReads v e rest := by
  obtain ⟨info, hname, hiff⟩ := h.drop htype
  have hwrite : e.writeBody = .ok ((if e.detach then "detach\n" else "drop\n") ++ e.newPartName) := by
    rcases htype with htype | htype <;> simp only [writeBody, htype]
  have hread : e.throughBody = { e.headed with
      type := if info.isFakeDropRangePart then .dropRange else .dropPart
      detach := e.detach, newPartName := e.newPartName } := by
    rcases htype with htype | htype
    · rw [if_pos (hiff.1 htype)]
      simp only [throughBody, written, headed, htype]
    · rw [if_neg (fun hfake => absurd (hiff.2 hfake) (by rw [htype]; decide))]
      simp only [throughBody, written, headed, htype]
  have hdrop : Takes (readDrop v e.detach e.headed) e.newPartName.toList (e.throughBody, false) ("\n".toList ++ rest) := by
    unfold readDrop
    refine Takes.bind_nil (LawfulEntryText.takes_string _ h.newPartName rest) ?_
    rw [hname, hread]
    exact Takes.pure _ _
  cases hdetach : e.detach with
  | true =>
    rw [hdetach] at hdrop hwrite
    exact BodyReads.of_fields "detach" _ hwrite (by simp) (by simp [Plain]) hdrop
  | false =>
    rw [hdetach] at hdrop hwrite
    exact BodyReads.of_fields "drop" _ hwrite (by simp) (by simp [Plain]) hdrop

theorem takes_replaceRange {r : ReplaceRangeEntry} (hname : Plain r.dropRangePartName)
    (hversion : IntType.int32.Holds r.columnsVersion) (rest : List Char) :
    Takes ReplaceRangeEntry.readText r.writeText.toList r ("\n".toList ++ rest) := by
  unfold ReplaceRangeEntry.writeText ReplaceRangeEntry.readText
  simp only [String.toList_append, List.append_assoc]
  refine (Takes.assertString _ _).bind (takes_before (by simp) (LawfulEntryText.takes_string _ hname) ?_)
  refine (Takes.assertString _ _).bind (takes_before (by simp) (LawfulEntryText.takes_escaped _) ?_)
  refine (Takes.assertString _ _).bind (takes_before (by simp) (LawfulEntryText.takes_escaped _) ?_)
  refine (Takes.assertString _ _).bind (takes_before (by simp) (LawfulEntryText.takes_quotedStrings _) ?_)
  refine (Takes.assertString _ _).bind (takes_before (by simp) (LawfulEntryText.takes_quotedStrings _) ?_)
  refine (Takes.assertString _ _).bind (takes_before (by simp) (LawfulEntryText.takes_quotedStrings _) ?_)
  refine (Takes.assertString _ _).bind ?_
  exact Takes.bind_pure (takes_number hversion rest)

theorem bodyReads_replaceRange (h : e.WellFormed v) (htype : e.type = .replaceRange) (rest : List Char) :
    BodyReads v e rest := by
  obtain ⟨r, hr, hname, hversion⟩ := h.replaceRange htype
  have hwrite : e.writeBody = .ok (replaceRangeTypeString ++ "\n" ++ r.writeText) := by
    simp only [writeBody, htype, hr]
  have hread : e.throughBody = { e.headed with type := .replaceRange, replaceRangeEntry := some r } := by
    simp only [throughBody, written, headed, htype, hr]
  refine BodyReads.of_fields "REPLACE_RANGE" r.writeText.toList hwrite (by simp [replaceRangeTypeString])
    (by simp [Plain]) ?_
  rw [hread]
  exact Takes.bind_pure (takes_replaceRange hname hversion rest)

theorem bodyReads_alter (h : e.WellFormed v) (htype : e.type = .alterMetadata) (rest : List Char) :
    BodyReads v e rest := by
  obtain ⟨hcolumns, hmetadata⟩ := h.alter htype
  have hwrite : e.writeBody = .ok e.writeAlter := by simp only [writeBody, htype]
  have hread : e.throughBody = { e.headed with
      type := .alterMetadata, alterVersion := e.alterVersion, haveMutation := e.haveMutation
      columnsStr := e.columnsStr, metadataStr := e.metadataStr } := by
    simp only [throughBody, written, headed, htype]
  refine BodyReads.of_fields "alter"
    ("alter_version\n".toList ++ ((writeIntText e.alterVersion).toList ++ ("\nhave_mutation\n".toList ++
      ((writeBool e.haveMutation).toList ++ ("\ncolumns_str_size:\n".toList ++
        ((writeIntText e.columnsStr.toList.length).toList ++ ("\n".toList ++ (e.columnsStr.toList ++
          ("\nmetadata_str_size:\n".toList ++ ((writeIntText e.metadataStr.toList.length).toList ++
            ("\n".toList ++ e.metadataStr.toList)))))))))))
    hwrite ?_ (by simp [Plain]) ?_
  · have htype : "alter\n".toList = "alter".toList ++ "\n".toList := by simp
    have hmutation : "\nhave_mutation\n".toList = "\n".toList ++ "have_mutation\n".toList := by simp
    have hcolumns : "\ncolumns_str_size:\n".toList = "\n".toList ++ "columns_str_size:\n".toList := by simp
    have hmetadata : "\nmetadata_str_size:\n".toList = "\n".toList ++ "metadata_str_size:\n".toList := by simp
    unfold writeAlter
    simp only [String.toList_append, List.append_assoc, htype, hmutation, hcolumns, hmetadata]
  rw [hread]
  refine (Takes.assertString _ _).bind ?_
  refine takes_before (by simp) (takes_number h.alterVersion) ?_
  refine takes_before (by simp) (LawfulEntryText.takes_bool _) ?_
  refine takes_before (by simp) (takes_number (IntType.holds_uint64 hcolumns)) ?_
  rw [Int.toNat_natCast]
  refine Takes.bind (Takes.readStrict _ _) ((Takes.assertString _ _).bind ?_)
  refine takes_before (by simp) (takes_number (IntType.holds_uint64 hmetadata)) ?_
  rw [Int.toNat_natCast]
  exact Takes.bind_pure (Takes.readStrict _ _)

/-! ## Bodies with optional lines -/

/-- An optional line of the body of a merge. -/
inductive MergeOption
  | mergeType (mergeType : MergeType)
  | intoUuid (uuid : BitVec 128)
  | columns (names : List String)
  | cleanup (cleanup : Bool)
  | patches (names : List String)

namespace MergeOption

/-- The line, without the newline in front of it. -/
def text : MergeOption → List Char
  | mergeType t => "merge_type: ".toList ++ (writeIntText t.toNat).toList
  | intoUuid u => "into_uuid: ".toList ++ (writeUuid u).toList
  | columns names =>
    "deduplicate_by_columns: ".toList ++ ",".toList.intercalate (names.map fun s => (writeQuoted s).toList)
  | cleanup b => "cleanup: ".toList ++ (writeBool b).toList
  | patches names =>
    "apply_patches: ".toList ++ ((writeIntText names.length).toList ++ names.flatMap fun s => "\n".toList ++ s.toList)

/-- What reading the line does to the entry. -/
def apply (e : LogEntryData) : MergeOption → LogEntryData
  | mergeType t => { e with mergeType := t }
  | intoUuid u => { e with newPartUuid := u }
  | columns names => { e with deduplicateByColumns := names }
  | cleanup b => { e with cleanup := b }
  | patches names => { e with patchParts := e.patchParts ++ names }

/-- The lists of an option are not empty, and its names need no escape. -/
def Readable : MergeOption → Prop
  | columns names => names ≠ []
  | patches names => names ≠ [] ∧ (∀ s ∈ names, Plain s) ∧ names.length < 2 ^ 64
  | _ => True

end MergeOption

theorem takes_patchNames (name : String) (names : List String) (h : ∀ s ∈ name :: names, Plain s) (before : List String)
    (rest : List Char) :
    Takes (readPatchNames (names.length + 1) before)
      (name.toList ++ names.flatMap fun s => "\n".toList ++ s.toList) (before ++ name :: names) ("\n".toList ++ rest) := by
  induction names generalizing name before with
  | nil =>
    rw [List.flatMap_nil, List.append_nil]
    exact Takes.bind_pure (LawfulEntryText.takes_string _ (h name List.mem_cons_self) rest)
  | cons next names ih =>
    have hmore := ih next (fun s hs => h s (List.mem_cons_of_mem name hs)) (before ++ [name])
    rw [List.append_assoc, List.singleton_append] at hmore
    rw [List.flatMap_cons, List.append_assoc]
    exact takes_before (by simp) (LawfulEntryText.takes_string _ (h name List.mem_cons_self)) hmore

theorem takes_sourceParts {parts : List String} (h : ∀ s ∈ parts, Plain s) (hinto : "into" ∉ parts)
    {fuel : ℕ} (hfuel : parts.length < fuel) (before : List String) (rest : List Char) :
    Takes (readSourceParts fuel before)
      ((parts.flatMap fun s => s.toList ++ "\n".toList) ++ ("into".toList ++ "\n".toList)) (before ++ parts) rest := by
  induction parts generalizing fuel before with
  | nil =>
    obtain ⟨fuel, rfl⟩ := Nat.exists_eq_succ_of_ne_zero (Nat.ne_of_gt hfuel)
    have hplain : Plain "into" := by simp [Plain]
    rw [List.append_nil, List.flatMap_nil, List.nil_append]
    refine Takes.bind (LawfulEntryText.takes_string _ hplain rest) ?_
    exact (Takes.assertString "\n" rest).bind_nil (Takes.pure before rest)
  | cons s parts ih =>
    obtain ⟨fuel, rfl⟩ := Nat.exists_eq_succ_of_ne_zero (Nat.ne_of_gt (Nat.zero_lt_of_lt hfuel))
    have hs : ¬ s = "into" := fun heq => hinto (heq ▸ List.mem_cons_self)
    have hmore := ih (fun t ht => h t (List.mem_cons_of_mem s ht)) (fun hmem => hinto (List.mem_cons_of_mem s hmem))
      (Nat.lt_of_succ_lt_succ hfuel) (before ++ [s])
    rw [List.append_assoc, List.singleton_append] at hmore
    rw [List.flatMap_cons, List.append_assoc, List.append_assoc]
    refine takes_before (by simp) (LawfulEntryText.takes_string _ (h s List.mem_cons_self)) ?_
    rw [if_neg hs]
    exact hmore

omit [EntryText] [LawfulEntryText] in
theorem checkAndGetMergeType_toNat (t : MergeType) : checkAndGetMergeType ((t.toNat : ℤ).toNat % 2 ^ 8) = .ok t := by
  cases t <;> rfl

/-- **An optional line of a merge is read back.** The lines differ in their first letters, so no
check of another line consumes anything. -/
theorem takes_mergeOption {o : MergeOption} (ho : o.Readable) (s : LogEntryData) (tail : List Char) :
    Takes (readMergeOption s) o.text (some (o.apply s)) ("\n".toList ++ tail) := by
  unfold readMergeOption
  cases o with
  | mergeType t =>
    have hholds : IntType.uint32.Holds t.toNat := by cases t <;> exact ⟨by decide, by decide⟩
    refine Takes.check_here (Takes.bind_nil (takes_number hholds tail) ?_)
    rw [checkAndGetMergeType_toNat]
    exact Takes.pure _ _
  | intoUuid u =>
    refine Takes.check_skip (by simp) (Takes.check_here ?_)
    exact Takes.bind_pure (LawfulEntryText.takes_uuid u tail)
  | columns names =>
    have hquoted : ∀ s ∈ names, ∀ next, next = "\n".toList ++ tail ∨ (∃ t, next = ",".toList ++ t) →
        Takes readQuoted (writeQuoted s).toList s next := by
      intro s _ next hnext
      refine LawfulEntryText.takes_quoted s next ?_
      rcases hnext with rfl | ⟨t, rfl⟩ <;> simp
    refine Takes.check_skip (by simp) (Takes.check_skip (by simp) (Takes.check_here ?_))
    refine Takes.bind_pure (Takes.withFuel fun fuel hfuel => ?_)
    have hcomma : ",".toList ≠ [] := by simp
    have hlength := length_le_intercalate hcomma (names.map fun s => (writeQuoted s).toList)
    rw [List.length_map] at hlength
    simp only [List.length_append] at hfuel
    exact Takes.readSeparated hcomma (by simp) hquoted ho (by omega) []
  | cleanup b =>
    refine Takes.check_skip (by simp) (Takes.check_skip (by simp) (Takes.check_skip (by simp) (Takes.check_here ?_)))
    exact Takes.bind_pure (LawfulEntryText.takes_bool b tail)
  | patches names =>
    obtain ⟨hne, hplain, hlength⟩ := ho
    have hcolon : "apply_patches: ".toList = "apply_patches:".toList ++ " ".toList := by simp
    have hnumber := takes_number (IntType.holds_uint64 hlength)
    cases names with
    | nil => exact absurd rfl hne
    | cons name names =>
      have hnames := takes_patchNames name names hplain s.patchParts tail
      change Takes _ ("apply_patches: ".toList ++ _) _ _
      rw [hcolon, List.append_assoc]
      refine Takes.check_skip (by simp) (Takes.check_skip (by simp) (Takes.check_skip (by simp)
        (Takes.check_skip (by simp) (Takes.check_here ?_))))
      refine (Takes.assertString _ _).bind ?_
      rw [List.flatMap_cons, List.append_assoc]
      refine takes_before (by simp) hnumber ?_
      rw [Int.toNat_natCast]
      exact Takes.bind_pure hnames

/-- The optional lines that the text of a merge has. -/
def mergeOptions (e : LogEntryData) : List MergeOption :=
  (if e.mergeType ≠ .regular then [.mergeType e.mergeType] else []) ++
  (if e.newPartUuid ≠ 0 then [.intoUuid e.newPartUuid] else []) ++
  (if e.deduplicateByColumns ≠ [] then [.columns e.deduplicateByColumns] else []) ++
  (if e.cleanup then [.cleanup e.cleanup] else []) ++
  if e.patchParts ≠ [] then [.patches e.patchParts] else []

omit [EntryText] [LawfulEntryText] in
theorem readable_mergeOptions (hplain : ∀ s ∈ e.patchParts, Plain s) (hlength : e.patchParts.length < 2 ^ 64) :
    ∀ o ∈ e.mergeOptions, o.Readable := by
  intro o ho
  unfold mergeOptions at ho
  simp only [List.mem_append, List.mem_ite_nil_right, List.mem_singleton] at ho
  rcases ho with (((⟨_, rfl⟩ | ⟨_, rfl⟩) | ⟨hne, rfl⟩) | ⟨_, rfl⟩) | ⟨hne, rfl⟩
  · trivial
  · trivial
  · exact hne
  · trivial
  · exact ⟨hne, hplain, hlength⟩

omit [EntryText] [LawfulEntryText] in
/-- A line that may be left out sets a field, which has its value already when it is left out. -/
theorem foldl_optional {ω : Type} {apply : LogEntryData → ω → LogEntryData} {os : List ω} {c : Prop} [Decidable c]
    {o : ω} {s s₁ s₂ : LogEntryData} (hbefore : os.foldl apply s = s₁) (hline : apply s₁ o = s₂)
    (hnone : ¬ c → s₁ = s₂) : (os ++ if c then [o] else []).foldl apply s = s₂ := by
  rw [List.foldl_append, hbefore]
  split
  · exact hline
  · next hc => exact hnone hc

omit [EntryText] [LawfulEntryText] in
theorem foldl_mergeOptions (e s : LogEntryData) (htype : s.mergeType = .regular) (huuid : s.newPartUuid = 0)
    (hcolumns : s.deduplicateByColumns = []) (hcleanup : s.cleanup = false) (hpatches : s.patchParts = []) :
    e.mergeOptions.foldl MergeOption.apply s = { s with
      mergeType := e.mergeType, newPartUuid := e.newPartUuid, deduplicateByColumns := e.deduplicateByColumns
      cleanup := e.cleanup, patchParts := e.patchParts } := by
  obtain ⟨⟩ := s
  subst htype huuid hcolumns hcleanup hpatches
  unfold mergeOptions
  rw [← List.nil_append (if e.mergeType ≠ .regular then [MergeOption.mergeType e.mergeType] else [])]
  refine foldl_optional (foldl_optional (foldl_optional (foldl_optional (foldl_optional rfl rfl ?_) rfl ?_) rfl ?_)
    rfl ?_) rfl ?_
  · intro hc
    rw [not_not.1 hc]
    rfl
  · intro hc
    rw [not_not.1 hc]
    rfl
  · intro hc
    rw [not_not.1 hc]
    rfl
  · intro hc
    rw [Bool.eq_false_iff.2 hc]
    rfl
  · intro hc
    rw [not_not.1 hc]
    rfl

omit [EntryText] [LawfulEntryText] in
theorem toList_optional {ω : Type} (text : ω → List Char) (c : Prop) [Decidable c] (o : ω) {s : String}
    (h : s.toList = "\n".toList ++ text o) :
    (if c then s else "").toList = (if c then [o] else []).flatMap fun o => "\n".toList ++ text o := by
  split
  · rw [h]
    simp
  · simp

omit [LawfulEntryText] in
theorem text_mergeOption (e : LogEntryData) :
    ("\nmerge_type: " ++ writeIntText e.mergeType.toNat).toList =
      "\n".toList ++ (MergeOption.mergeType e.mergeType).text ∧
    ("\ninto_uuid: " ++ writeUuid e.newPartUuid).toList = "\n".toList ++ (MergeOption.intoUuid e.newPartUuid).text ∧
    ("\ndeduplicate_by_columns: " ++ String.intercalate "," (e.deduplicateByColumns.map writeQuoted)).toList =
      "\n".toList ++ (MergeOption.columns e.deduplicateByColumns).text ∧
    ("\ncleanup: " ++ writeBool e.cleanup).toList = "\n".toList ++ (MergeOption.cleanup e.cleanup).text ∧
    ("\napply_patches: " ++ writeIntText e.patchParts.length ++
      String.join (e.patchParts.map fun s => "\n" ++ s)).toList =
        "\n".toList ++ (MergeOption.patches e.patchParts).text := by
  have htype : "\nmerge_type: ".toList = "\n".toList ++ "merge_type: ".toList := by decide
  have huuid : "\ninto_uuid: ".toList = "\n".toList ++ "into_uuid: ".toList := by decide
  have hcolumns : "\ndeduplicate_by_columns: ".toList = "\n".toList ++ "deduplicate_by_columns: ".toList := by decide
  have hcleanup : "\ncleanup: ".toList = "\n".toList ++ "cleanup: ".toList := by decide
  have hpatches : "\napply_patches: ".toList = "\n".toList ++ "apply_patches: ".toList := by decide
  have hnames : (String.join (e.patchParts.map fun s => "\n" ++ s)).toList =
      e.patchParts.flatMap fun s => "\n".toList ++ s.toList := by
    rw [String.toList_join, List.flatMap_map]
    simp only [String.toList_append]
  refine ⟨?_, ?_, ?_, ?_, ?_⟩
  · rw [String.toList_append, htype, List.append_assoc]
    rfl
  · rw [String.toList_append, huuid, List.append_assoc]
    rfl
  · rw [String.toList_append, hcolumns, List.append_assoc, String.toList_intercalate, List.map_map]
    rfl
  · rw [String.toList_append, hcleanup, List.append_assoc]
    rfl
  · rw [String.toList_append, String.toList_append, hpatches, hnames, List.append_assoc, List.append_assoc]
    rfl

omit [LawfulEntryText] in
theorem toList_writeMerge (e : LogEntryData) : e.writeMerge.toList = "merge".toList ++ ("\n".toList ++
    (((e.sourceParts.flatMap fun s => s.toList ++ "\n".toList) ++ ("into".toList ++ "\n".toList)) ++
      (e.newPartName.toList ++ ("\ndeduplicate: ".toList ++ ((writeBool e.deduplicate).toList ++
        e.mergeOptions.flatMap fun o => "\n".toList ++ o.text))))) := by
  have hmerge : "merge\n".toList = "merge".toList ++ "\n".toList := by decide
  have hinto : "into\n".toList = "into".toList ++ "\n".toList := by decide
  have hparts : (String.join (e.sourceParts.map fun s => s ++ "\n")).toList =
      e.sourceParts.flatMap fun s => s.toList ++ "\n".toList := by
    rw [String.toList_join, List.flatMap_map]
    simp only [String.toList_append]
  obtain ⟨htype, huuid, hcolumns, hcleanup, hpatches⟩ := text_mergeOption e
  have hoption := @toList_optional _ MergeOption.text
  unfold writeMerge mergeOptions
  rw [String.toList_append, hoption (e.patchParts ≠ []) _ hpatches, String.toList_append,
    hoption (e.cleanup = true) _ hcleanup, String.toList_append, hoption (e.deduplicateByColumns ≠ []) _ hcolumns,
    String.toList_append, hoption (e.newPartUuid ≠ 0) _ huuid, String.toList_append,
    hoption (e.mergeType ≠ .regular) _ htype]
  simp only [String.toList_append, List.flatMap_append, List.append_assoc, hmerge, hinto, hparts]

omit [EntryText] [LawfulEntryText] in
theorem length_lt_fuel {ω : Type} {text : ω → List Char} {os : List ω} {fuel : ℕ}
    (h : ((os.flatMap fun o => "\n".toList ++ text o) ++ "\n".toList ++ rest).length < fuel) : os.length < fuel := by
  have hlines : ∀ o ∈ os, "\n".toList ++ text o ≠ [] := fun o _ => by simp
  have hlength := length_le_flatMap hlines
  rw [List.length_append, List.length_append] at h
  omega

omit [EntryText] [LawfulEntryText] in
theorem TailStart.check_none (hrest : TailStart rest) {t : String}
    (ht : t.toList ≠ [] ∧ t.toList.head? ≠ some 'p' ∧ t.toList.head? ≠ some 's' ∧ t.toList.head? ≠ some 'q') :
    Takes (checkString t) [] false rest := by
  obtain ⟨hne, hp, hs, hq⟩ := ht
  refine Takes.checkString_ne hne ?_
  cases hhead : rest.head? with
  | none =>
    intro heq
    exact hne (List.head?_eq_none_iff.1 heq)
  | some c =>
    rcases hrest c hhead with rfl | rfl | rfl
    · exact hp
    · exact hs
    · exact hq

omit [LawfulEntryText] in
theorem takes_noMergeOption (hrest : TailStart rest) (s : LogEntryData) :
    Takes (readMergeOption s) [] none rest := by
  unfold readMergeOption
  refine Takes.nil_bind (hrest.check_none (by decide)) ?_
  refine Takes.nil_bind (hrest.check_none (by decide)) ?_
  refine Takes.nil_bind (hrest.check_none (by decide)) ?_
  refine Takes.nil_bind (hrest.check_none (by decide)) ?_
  exact Takes.nil_bind (hrest.check_none (by decide)) (Takes.pure none rest)

theorem takes_merge (h : e.WellFormed v) (htype : e.type = .mergeParts) (hrest : TailStart rest)
    (e₀ : LogEntryData) (hparts : e₀.sourceParts = []) :
    Takes (readMerge e.writtenFormatVersion e₀)
      ((((e.sourceParts.flatMap fun s => s.toList ++ "\n".toList) ++ ("into".toList ++ "\n".toList)) ++
        (e.newPartName.toList ++ ("\ndeduplicate: ".toList ++ ((writeBool e.deduplicate).toList ++
          e.mergeOptions.flatMap fun o => "\n".toList ++ o.text)))) ++ "\n".toList)
      (e.mergeOptions.foldl MergeOption.apply { e₀ with
        type := .mergeParts, sourceParts := e.sourceParts, newPartName := e.newPartName
        deduplicate := e.deduplicate }, true) rest := by
  obtain ⟨hinto, hpatches, hlength⟩ := h.merge htype
  obtain ⟨hlow, _, _⟩ := writtenFormatVersion_bounds e
  have hversion : (e.writtenFormatVersion : ℤ) ≥ formatWithDeduplicate := by omega
  have hoptions := readable_mergeOptions hpatches hlength
  have hline : ∀ o ∈ e.mergeOptions, ∀ s tail,
      Takes (readMergeOption s) o.text (some (o.apply s)) ("\n".toList ++ tail) :=
    fun o ho s tail => takes_mergeOption (hoptions o ho) s tail
  unfold readMerge
  simp only [if_pos hversion, hparts]
  rw [List.append_assoc]
  refine Takes.bind (a := e.sourceParts) (Takes.withFuel fun fuel hfuel => ?_) ?_
  · have hlines : ∀ s ∈ e.sourceParts, s.toList ++ "\n".toList ≠ [] := fun s _ => by simp
    have hlength := length_le_flatMap hlines
    simp only [List.length_append] at hfuel hlength
    exact takes_sourceParts h.sourceParts hinto (by omega) [] _
  simp only [List.append_assoc]
  refine takes_before (by decide) (LawfulEntryText.takes_string _ h.newPartName) ?_
  obtain ⟨tail, htail⟩ := exists_newline MergeOption.text e.mergeOptions rest
  refine Takes.bind (a := e.deduplicate) ?_ (Takes.bind_pure (Takes.withFuel fun fuel hfuel => ?_))
  · rw [List.append_assoc, htail]
    exact LawfulEntryText.takes_bool _ tail
  · exact Takes.readOptions hline (takes_noMergeOption hrest) (length_lt_fuel hfuel) _

/-- **A merge is read back.** -/
theorem bodyReads_merge (h : e.WellFormed v) (htype : e.type = .mergeParts) (hrest : TailStart rest) :
    BodyReads v e rest := by
  have hwrite : e.writeBody = .ok e.writeMerge := by simp only [writeBody, htype]
  have hread := takes_merge h htype hrest e.headed rfl
  rw [foldl_mergeOptions e _ rfl rfl rfl rfl rfl] at hread
  refine BodyReads.of_options "merge" _ hwrite (toList_writeMerge e) (by simp [Plain]) ?_
  have hthrough : e.throughBody = { e.headed with
      type := .mergeParts, sourceParts := e.sourceParts, newPartName := e.newPartName, deduplicate := e.deduplicate
      mergeType := e.mergeType, newPartUuid := e.newPartUuid, deduplicateByColumns := e.deduplicateByColumns
      cleanup := e.cleanup, patchParts := e.patchParts } := by
    simp only [throughBody, written, headed, htype]
  rw [hthrough]
  exact hread

/-- An optional line of the body of a mutation. -/
inductive MutateOption
  | toUuid (uuid : BitVec 128)
  | alterVersion (alterVersion : ℤ)

namespace MutateOption

/-- The line, without the newline in front of it. -/
def text : MutateOption → List Char
  | toUuid u => "to_uuid\n".toList ++ (writeUuid u).toList
  | alterVersion n => "alter_version\n".toList ++ (writeIntText n).toList

/-- What reading the line does to the entry. -/
def apply (e : LogEntryData) : MutateOption → LogEntryData
  | toUuid u => { e with newPartUuid := u }
  | alterVersion n => { e with alterVersion := n }

end MutateOption

/-- The optional lines that the text of a mutation has. -/
def mutateOptions (e : LogEntryData) : List MutateOption :=
  (if e.newPartUuid ≠ 0 then [.toUuid e.newPartUuid] else []) ++
  if e.alterVersion ≠ -1 then [.alterVersion e.alterVersion] else []

theorem takes_mutateOption (h : IntType.int32.Holds e.alterVersion) {o : MutateOption} (ho : o ∈ e.mutateOptions)
    (s : LogEntryData) (tail : List Char) :
    Takes (readMutateOption s) o.text (some (o.apply s)) ("\n".toList ++ tail) := by
  unfold mutateOptions at ho
  simp only [List.mem_append, List.mem_ite_nil_right, List.mem_singleton] at ho
  unfold readMutateOption
  rcases ho with ⟨_, rfl⟩ | ⟨_, rfl⟩
  · exact Takes.check_skip (by decide) (Takes.check_here (Takes.bind_pure (LawfulEntryText.takes_uuid _ tail)))
  · exact Takes.check_here (Takes.bind_pure (takes_number h tail))

omit [LawfulEntryText] in
theorem takes_noMutateOption (hrest : TailStart rest) (s : LogEntryData) :
    Takes (readMutateOption s) [] none rest := by
  unfold readMutateOption
  refine Takes.nil_bind (hrest.check_none (by decide)) ?_
  exact Takes.nil_bind (hrest.check_none (by decide)) (Takes.pure none rest)

omit [EntryText] [LawfulEntryText] in
theorem foldl_mutateOptions (e s : LogEntryData) (huuid : s.newPartUuid = 0) (hversion : s.alterVersion = -1) :
    e.mutateOptions.foldl MutateOption.apply s =
      { s with newPartUuid := e.newPartUuid, alterVersion := e.alterVersion } := by
  obtain ⟨⟩ := s
  subst huuid hversion
  unfold mutateOptions
  rw [← List.nil_append (if e.newPartUuid ≠ 0 then [MutateOption.toUuid e.newPartUuid] else [])]
  refine foldl_optional (foldl_optional rfl rfl ?_) rfl ?_
  · intro hc
    rw [not_not.1 hc]
    rfl
  · intro hc
    rw [not_not.1 hc]
    rfl

omit [LawfulEntryText] in
theorem toList_writeMutate (e : LogEntryData) (sourcePart : String) :
    ("mutate\n" ++ sourcePart ++ "\n" ++ "to\n" ++ e.newPartName ++
      (if e.newPartUuid ≠ 0 then "\nto_uuid\n" ++ writeUuid e.newPartUuid else "") ++
      if e.alterVersion ≠ -1 then "\nalter_version\n" ++ writeIntText e.alterVersion else "").toList =
    "mutate".toList ++ ("\n".toList ++ (sourcePart.toList ++ ("\n".toList ++ ("to\n".toList ++ (e.newPartName.toList ++
      e.mutateOptions.flatMap fun o => "\n".toList ++ o.text))))) := by
  have hmutate : "mutate\n".toList = "mutate".toList ++ "\n".toList := by decide
  have huuidLine : "\nto_uuid\n".toList = "\n".toList ++ "to_uuid\n".toList := by decide
  have hversionLine : "\nalter_version\n".toList = "\n".toList ++ "alter_version\n".toList := by decide
  have huuid : ("\nto_uuid\n" ++ writeUuid e.newPartUuid).toList =
      "\n".toList ++ (MutateOption.toUuid e.newPartUuid).text := by
    rw [String.toList_append, huuidLine, List.append_assoc]
    rfl
  have hversion : ("\nalter_version\n" ++ writeIntText e.alterVersion).toList =
      "\n".toList ++ (MutateOption.alterVersion e.alterVersion).text := by
    rw [String.toList_append, hversionLine, List.append_assoc]
    rfl
  have hoption := @toList_optional _ MutateOption.text
  unfold mutateOptions
  rw [String.toList_append, hoption (e.alterVersion ≠ -1) _ hversion, String.toList_append,
    hoption (e.newPartUuid ≠ 0) _ huuid]
  simp only [String.toList_append, List.flatMap_append, List.append_assoc, hmutate]

/-- **A mutation is read back**, with one source part. -/
theorem bodyReads_mutate (h : e.WellFormed v) (htype : e.type = .mutatePart) (hne : e.sourceParts ≠ [])
    (hrest : TailStart rest) : BodyReads v e rest := by
  cases hparts : e.sourceParts with
  | nil => exact absurd hparts hne
  | cons sourcePart parts =>
    have hplain : Plain sourcePart := h.sourceParts sourcePart (by rw [hparts]; exact List.mem_cons_self)
    have halter : (e.isAlterMutation = true) = (e.alterVersion ≠ -1) := by
      simp [isAlterMutation, htype]
    have hwrite : e.writeBody = .ok ("mutate\n" ++ sourcePart ++ "\n" ++ "to\n" ++ e.newPartName ++
        (if e.newPartUuid ≠ 0 then "\nto_uuid\n" ++ writeUuid e.newPartUuid else "") ++
        if e.alterVersion ≠ -1 then "\nalter_version\n" ++ writeIntText e.alterVersion else "") := by
      simp only [writeBody, htype, writeMutate, hparts, halter]
    have hthrough : e.throughBody = { e.headed with
        type := .mutatePart, sourceParts := [sourcePart], newPartName := e.newPartName
        newPartUuid := e.newPartUuid, alterVersion := e.alterVersion } := by
      simp only [throughBody, written, headed, htype, hparts, List.take_succ_cons, List.take_zero]
    have hfold := foldl_mutateOptions e { e.headed with
      type := .mutatePart, sourceParts := [sourcePart], newPartName := e.newPartName } rfl rfl
    obtain ⟨tail, htail⟩ := exists_newline MutateOption.text e.mutateOptions rest
    refine BodyReads.of_options "mutate" _ hwrite (toList_writeMutate e sourcePart) (by simp [Plain]) ?_
    change Takes (readMutate _) _ _ _
    unfold readMutate
    simp only [List.append_assoc]
    refine takes_before (by decide) (LawfulEntryText.takes_string _ hplain) ?_
    refine (Takes.assertString _ _).bind ?_
    refine Takes.bind (a := e.newPartName) ?_ ?_
    · rw [List.append_assoc, htail]
      exact LawfulEntryText.takes_string _ h.newPartName tail
    · rw [hthrough, ← hfold]
      refine Takes.bind_pure (Takes.withFuel fun fuel hfuel => ?_)
      exact Takes.readOptions (fun o ho => takes_mutateOption h.alterVersion ho) (takes_noMutateOption hrest)
        (length_lt_fuel hfuel) _

/-! ## Round trip -/

theorem takes_body (h : e.WellFormed v) (hchecksum : e.type = .attachPart → Plain e.partChecksum)
    (hmutate : e.type = .mutatePart → e.sourceParts ≠ []) (hrest : TailStart rest) : BodyReads v e rest := by
  cases htype : e.type with
  | empty => exact absurd htype h.type
  | getPart => exact bodyReads_get h htype rest
  | attachPart => exact bodyReads_attach h htype (hchecksum htype) rest
  | mergeParts => exact bodyReads_merge h htype hrest
  | dropRange => exact bodyReads_drop h (Or.inl htype) rest
  | clearColumn => exact bodyReads_clearColumn h htype rest
  | clearIndex => exact bodyReads_clearIndex h htype rest
  | replaceRange => exact bodyReads_replaceRange h htype rest
  | mutatePart => exact bodyReads_mutate h htype (hmutate htype) hrest
  | alterMetadata => exact bodyReads_alter h htype rest
  | syncPinnedPartUuids => exact bodyReads_sync htype rest
  | clonePartFromShard => exact bodyReads_clone h htype rest
  | dropPart => exact bodyReads_drop h (Or.inr htype) rest

/-- **An entry is read back from its text**: the text is accepted as a whole, and every field that
is written for the type of the entry comes back. -/
theorem parse_writeText (h : e.WellFormed v) (hchecksum : e.type = .attachPart → Plain e.partChecksum)
    (hmutate : e.type = .mutatePart → e.sourceParts ≠ []) (now ctime : ℤ) :
    ∃ text, e.writeText now = .ok text ∧ parse text ctime v = .ok e.written := by
  obtain ⟨body, typeStr, text, hwrite, hplain, htext, hbody⟩ := takes_body h hchecksum hmutate (tailStart_writeTail e)
  have htail := takes_tail h e.throughBody rfl
  have hend : ({ e.throughBody with newPartFormat := e.newPartFormat, quorum := e.quorum } : LogEntryData) = e.written := by
    unfold throughBody written
    cases e.type <;> rfl
  rw [hend] at htail
  have hread : Takes (readText v {}) (e.writeHeader now ++ body ++ "\n" ++ e.writeTail).toList e.written [] := by
    unfold readText
    simp only [String.toList_append, List.append_assoc]
    refine Takes.bind (takes_header h now _) ?_
    rw [← List.append_assoc, htext]
    simp only [List.append_assoc]
    refine takes_before (by decide) (LawfulEntryText.takes_string _ hplain) ?_
    refine Takes.bind ?_ htail
    rw [List.append_nil]
    exact hbody
  have htime : e.written.createTime = e.createTime := by
    unfold written
    cases e.type <;> rfl
  refine ⟨e.writeHeader now ++ body ++ "\n" ++ e.writeTail, ?_, ?_⟩
  · unfold writeText
    rw [hwrite]
  · unfold Takes at hread
    rw [List.append_nil] at hread
    unfold parse
    rw [hread]
    simp only [htime, if_pos h.createTime.1]

end LogEntryData

/-! ## Concrete entries -/

namespace LogEntryData

section Plain

attribute [local instance] EntryText.plain LawfulEntryText.plain

/-- A merge with most of its optional lines. -/
def someMerge : LogEntryData where
  type := .mergeParts
  createTime := 1700000000
  sourceReplica := "r1"
  deduplicationBlockIds := ["a", "b"]
  newPartName := "all_1_2_1"
  sourceParts := ["all_1_1_0", "all_2_2_0"]
  newPartUuid := 5
  deduplicateByColumns := ["x"]
  mergeType := .ttlDelete
  patchParts := ["patch-1"]
  quorum := 2
  newPartFormat := { partType := .compact, storageType := .full }

/-- An attached part with a checksum that is not the text of a number. -/
def someAttach : LogEntryData where
  type := .attachPart
  createTime := 1700000000
  sourceReplica := "r1"
  newPartName := "all_1_1_0"
  partChecksum := "\t"
  newPartFormat := { partType := .wide, storageType := .full }

theorem representable_someTime : Representable 1700000000 := by
  refine ⟨⟨?_, ?_, ?_, ?_, ?_, ?_⟩, ?_⟩
  · decide
  · decide
  · decide
  · decide
  · decide
  · decide
  · decide

theorem wellFormed_someMerge : someMerge.WellFormed 1 where
  type := by decide
  createTime := ⟨by decide, representable_someTime⟩
  sourceReplica := by simp [someMerge, Plain]
  deduplicationBlockIds := by simp [someMerge]
  newPartName := by simp [someMerge, Plain]
  sourceParts := by simp [someMerge, Plain]
  partType := by decide
  storageType := by decide
  quorum := by decide
  alterVersion := ⟨by decide, by decide⟩
  clone := nofun
  merge := by simp [someMerge, Plain]
  drop := fun h => absurd h (by decide)
  replaceRange := nofun
  alter := nofun

theorem wellFormed_someAttach : someAttach.WellFormed 1 where
  type := by decide
  createTime := ⟨by decide, representable_someTime⟩
  sourceReplica := by simp [someAttach, Plain]
  deduplicationBlockIds := by simp [someAttach]
  newPartName := by simp [someAttach, Plain]
  sourceParts := by simp [someAttach, Plain]
  partType := by decide
  storageType := by decide
  quorum := by decide
  alterVersion := ⟨by decide, by decide⟩
  clone := nofun
  merge := by simp [someAttach, Plain]
  drop := fun h => absurd h (by decide)
  replaceRange := nofun
  alter := nofun

theorem parse_writeText_someMerge :
    ∃ text, someMerge.writeText 0 = .ok text ∧ parse text 0 1 = .ok someMerge.written :=
  parse_writeText wellFormed_someMerge nofun nofun 0 0

/-- The checksum of an attached part is not escaped. -/
theorem parse_someAttach : ¬ ∀ e : LogEntryData, e.WellFormed 1 →
    ∃ text, e.writeText 0 = .ok text ∧ parse text 0 1 = .ok e.written := by
  intro h
  obtain ⟨text, hwrite, hparse⟩ := h someAttach wellFormed_someAttach
  have hrun : ((someAttach.writeText 0).toOption.bind fun text => (parse text 0 1).toOption) = none := by
    decide +kernel
  rw [hwrite] at hrun
  change (parse text 0 1).toOption = none at hrun
  rw [hparse] at hrun
  cases hrun

end Plain

end LogEntryData

end MergeTree
