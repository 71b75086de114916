import MergeTree.Spec.SetIndexGranule

/-!
# Reading set index granules into one object

A granule that is read right leaves the stream at the next granule. An overflowed granule
leaves a block without columns, and every granule read into that block afterwards stays
empty, whatever was written (`readMarks_decoded_iff`).
-/

namespace MergeTree

theorem Reads.each_zip {α β : Type} {f : α → Reader β} {write : α × β → List UInt8} :
    ∀ {places : List α} {values : List β}, places.length = values.length →
      (∀ p ∈ places.zip values, Reads (f p.1) (write p) p.2) →
      Reads (Reader.each f places) ((places.zip values).flatMap write) values := by
  intro places
  induction places with
  | nil =>
    intro values hlen _
    obtain rfl : values = [] := List.length_eq_zero_iff.1 hlen.symm
    exact Reads.pure []
  | cons a places ih =>
    intro values hlen h
    cases values with
    | nil => cases hlen
    | cons b values =>
      rw [List.zip_cons_cons] at h ⊢
      have hhead := h (a, b) List.mem_cons_self
      have hrest := ih (Nat.succ.inj hlen) fun p hp => h p (List.mem_cons_of_mem _ hp)
      rw [List.flatMap_cons]
      exact hhead.bind hrest.bind_pure

namespace MergeTreeIndexSet

variable {V : Type} {idx : MergeTreeIndexSet V}

/-- The column types read back what they wrote. -/
def RoundTrips (idx : MergeTreeIndexSet V) : Prop :=
  ∀ column ∈ idx.columns, ∀ values : List V, (∀ v ∈ values, column.holds v) →
    Reads (column.deserialize values.length) (column.serialize values) values

/-- A granule as the aggregator makes it: all columns of the index, with the same rows. -/
structure Collected (idx : MergeTreeIndexSet V) extends SetGranule V where
  width : block.length = idx.columns.length
  rows : ∀ values ∈ block, values.length = toSetGranule.size
  nonempty : 0 < toSetGranule.size
  size_lt : toSetGranule.size < 2 ^ 64
  holds : ∀ p ∈ idx.columns.zip block, ∀ v ∈ p.2, p.1.holds v

/-- More than `max_rows` tuples were collected. -/
def Overflows (idx : MergeTreeIndexSet V) (granule : SetGranule V) : Prop := idx.maxRows ≠ 0 ∧ idx.maxRows < granule.size

instance (granule : SetGranule V) : Decidable (idx.Overflows granule) := inferInstanceAs (Decidable (_ ∧ _))

/-- The bytes of the columns of a granule. -/
def columnBytes (idx : MergeTreeIndexSet V) (granule : SetGranule V) : List UInt8 :=
  (idx.columns.zip granule.block).flatMap fun (column, values) => column.serialize values

/-- The bytes of a granule. -/
def bytes (idx : MergeTreeIndexSet V) (granule : SetGranule V) : List UInt8 :=
  if idx.Overflows granule then writeLittleEndian 8 0
  else writeLittleEndian 8 granule.size ++ idx.columnBytes granule

theorem serializeBinary_collected (granule : Collected idx) :
    idx.serializeBinary granule.toSetGranule = .ok (idx.bytes granule.toSetGranule) := by
  have hpos := granule.nonempty
  unfold serializeBinary bytes
  rw [if_neg (by omega)]
  by_cases h : idx.Overflows granule.toSetGranule
  · rw [if_pos h]
    exact if_pos h
  · rw [if_neg h]
    exact if_neg h

/-! ## One granule -/

section Granule

variable {granule : SetGranule V}

theorem reads_rows {n : ℕ} (hn : n < 2 ^ 64) : Reads (readLittleEndian 8) (writeLittleEndian 8 n) n :=
  Reads.littleEndian (lt_of_lt_of_eq hn (by norm_num))

theorem reads_overflowed {w : SetGranule V} (h : idx.Overflows w) (granule : SetGranule V) :
    Reads (idx.deserializeBinary 1 granule) (idx.bytes w) { granule with block := [] } := by
  unfold deserializeBinary bytes
  rw [if_pos h]
  refine (Reads.check rfl).nil_bind ((reads_rows (by norm_num)).bind_nil ?_)
  rw [if_pos rfl]
  exact Reads.pure _

theorem reads_collected (hround : idx.RoundTrips) (w : Collected idx) (h : ¬idx.Overflows w.toSetGranule)
    (hgranule : granule.block.length = idx.columns.length) :
    Reads (idx.deserializeBinary 1 granule) (idx.bytes w.toSetGranule)
      { block := w.block, setHyperrectangle := idx.extremes w.block } := by
  have hpos := w.nonempty
  unfold deserializeBinary bytes
  rw [if_neg h]
  refine (Reads.check rfl).nil_bind ((reads_rows w.size_lt).bind ?_)
  rw [if_neg (by omega)]
  have hcolumns : Reads (Reader.each (fun column => column.deserialize w.toSetGranule.size)
      (idx.columns.take granule.block.length)) (idx.columnBytes w.toSetGranule) w.block := by
    rw [hgranule, List.take_length]
    refine Reads.each_zip w.width.symm fun p hp => ?_
    have hread := hround p.1 (List.of_mem_zip hp).1 p.2 (w.holds p hp)
    rwa [w.rows p.2 (List.of_mem_zip hp).2] at hread
  exact hcolumns.bind_pure

theorem run_cleared (w : Collected idx) (h : ¬idx.Overflows w.toSetGranule) (hgranule : granule.block = [])
    (rest : List UInt8) :
    (idx.deserializeBinary 1 granule).run (idx.bytes w.toSetGranule ++ rest) =
      .ok ({ block := [] }, idx.columnBytes w.toSetGranule ++ rest) := by
  have hpos := w.nonempty
  have hread : Reads (idx.deserializeBinary 1 granule) (writeLittleEndian 8 w.toSetGranule.size) { block := [] } := by
    unfold deserializeBinary
    refine (Reads.check rfl).nil_bind ((reads_rows w.size_lt).bind_nil ?_)
    rw [if_neg (by omega), hgranule]
    have hnone : Reads (Reader.each (fun column : SetColumn V => column.deserialize w.toSetGranule.size)
        (idx.columns.take 0)) [] [] := Reads.pure []
    have hextremes : idx.extremes [] = [] := by simp [extremes]
    have hbind := hnone.bind_pure (f := fun block => (⟨block, idx.extremes block⟩ : SetGranule V))
    rwa [hextremes] at hbind
  unfold bytes
  rw [if_neg h, List.append_assoc]
  exact hread _

end Granule

/-! ## The file -/

/-- The bytes of granules, one after another. -/
def allBytes (granules : List (Collected idx)) : List UInt8 := granules.flatMap fun w => idx.bytes w.toSetGranule

theorem allBytes_append (a b : List (Collected idx)) : allBytes (a ++ b) = allBytes a ++ allBytes b := List.flatMap_append

/-- What the file has from a mark on: nothing after the last one. -/
def fileFrom (file : IndexFile) (mark : ℕ) : List UInt8 :=
  file.data.drop (file.marks.getD mark file.data.length)

theorem exists_writeGranules (granules : List (Collected idx)) :
    ∃ file, idx.writeGranules (granules.map Collected.toSetGranule) = .ok file ∧ file.data = allBytes granules ∧
      file.marks = (List.range granules.length).map fun m => (allBytes (granules.take m)).length := by
  induction granules using List.reverseRecOn with
  | nil => exact ⟨{}, rfl, rfl, rfl⟩
  | append_singleton granules w ih =>
    obtain ⟨file, hfile, hdata, hmarks⟩ := ih
    refine ⟨file.write (idx.bytes w.toSetGranule), ?_, ?_, ?_⟩
    · unfold writeGranules at hfile ⊢
      rw [List.map_append, List.foldlM_append, hfile]
      change ([w.toSetGranule].foldlM (fun file granule => (idx.serializeBinary granule).map file.write) file :
        Except String IndexFile) = _
      rw [List.foldlM_cons, serializeBinary_collected]
      rfl
    · simp only [IndexFile.write, hdata, allBytes_append]
      simp [allBytes]
    · have hbefore : ∀ m ∈ List.range granules.length,
          (allBytes ((granules ++ [w]).take m)).length = (allBytes (granules.take m)).length := fun m hm => by
        rw [List.take_append_of_le_length (List.mem_range.1 hm).le]
      rw [List.length_append, List.length_singleton, List.range_succ, List.map_append, List.map_congr_left hbefore]
      simp only [IndexFile.write, hmarks, hdata, List.map_singleton, List.take_left]

section Run

variable {granules : List (Collected idx)} {file : IndexFile}

/-- A file that these granules were written to. -/
structure Holds (file : IndexFile) (granules : List (Collected idx)) : Prop where
  data : file.data = allBytes granules
  marks : file.marks = (List.range granules.length).map fun m => (allBytes (granules.take m)).length

theorem Holds.from_eq (h : Holds file granules) {mark : ℕ} (hmark : mark ≤ granules.length) :
    fileFrom file mark = allBytes (granules.drop mark) := by
  have hsplit : allBytes granules = allBytes (granules.take mark) ++ allBytes (granules.drop mark) := by
    rw [← allBytes_append, List.take_append_drop]
  have hoffset : file.marks.getD mark file.data.length = (allBytes (granules.take mark)).length := by
    rw [List.getD_eq_getElem?_getD, h.marks, h.data]
    rcases Nat.lt_or_eq_of_le hmark with hlt | rfl
    · rw [List.getElem?_map, List.getElem?_range hlt]
      rfl
    · rw [List.getElem?_eq_none (by simp), List.take_length]
      rfl
  rw [fileFrom, hoffset, h.data, hsplit, List.drop_left]

theorem Holds.from_succ (h : Holds file granules) {mark : ℕ} (hmark : mark < granules.length) :
    fileFrom file mark = idx.bytes (granules.get ⟨mark, hmark⟩).toSetGranule ++ fileFrom file (mark + 1) := by
  rw [h.from_eq hmark.le, h.from_eq hmark, List.drop_eq_getElem_cons hmark]
  rfl

theorem Holds.seekToMark (h : Holds file granules) {mark : ℕ} (hmark : mark < granules.length) :
    file.seekToMark mark = .ok (fileFrom file mark) := by
  have hget : file.marks[mark]? = some (allBytes (granules.take mark)).length := by
    rw [h.marks, List.getElem?_map, List.getElem?_range hmark]
    rfl
  simp only [IndexFile.seekToMark, fileFrom, List.getD_eq_getElem?_getD, hget, Option.getD_some]

/-- The stream is where `stream_mark` says, or it is not open and `stream_mark` is 0. -/
def Aligned (file : IndexFile) (reader : IndexReader) : Prop :=
  (reader.stream = none ∧ reader.streamMark = 0) ∨ reader.stream = some (fileFrom file reader.streamMark)

/-- What a read has to leave. -/
structure Decoded (granules : List (Collected idx)) (file : IndexFile) (mark : ℕ) (result : SetGranule V × IndexReader) :
    Prop where
  granule : ∃ h : mark < granules.length, let w := granules.get ⟨mark, h⟩
    (idx.Overflows w.toSetGranule → result.1.size = 0) ∧
    (¬idx.Overflows w.toSetGranule → result.1 = { block := w.block, setHyperrectangle := idx.extremes w.block })
  reader : result.2 = { stream := some (fileFrom file (mark + 1)), streamMark := mark + 1 }

theorem Holds.read_eq (h : Holds file granules) {reader : IndexReader} (hreader : Aligned file reader) {mark : ℕ}
    (hmark : mark < granules.length) (granule : Option (SetGranule V)) :
    reader.read file idx.createIndexGranule (idx.deserializeBinary 1) mark granule =
      (idx.deserializeBinary 1 (granule.getD idx.createIndexGranule)).run
        (idx.bytes (granules.get ⟨mark, hmark⟩).toSetGranule ++ fileFrom file (mark + 1)) >>= fun result =>
          .ok (result.1, { stream := some result.2, streamMark := mark + 1 }) := by
  have hstream : (if reader.streamMark ≠ mark then file.seekToMark mark else .ok (reader.stream.getD file.data)) =
      (.ok (fileFrom file mark) : Except String (List UInt8)) := by
    by_cases hsame : reader.streamMark = mark
    · rw [if_neg (not_not.2 hsame)]
      rcases hreader with ⟨hnone, hzero⟩ | hsome
      · rw [hnone, ← hsame, hzero, h.from_eq (Nat.zero_le _), Option.getD_none, h.data]
        rfl
      · rw [hsome, hsame, Option.getD_some]
    · rw [if_pos hsame, h.seekToMark hmark]
  unfold IndexReader.read
  simp only [hstream, h.from_succ hmark]
  rfl

/-- The granule of a mark overflowed. -/
def OverflowsAt (granules : List (Collected idx)) (mark : ℕ) : Prop :=
  ∃ h : mark < granules.length, idx.Overflows (granules.get ⟨mark, h⟩).toSetGranule

/-- Reads of marks that all leave what they have to. -/
def AllDecoded (granules : List (Collected idx)) (file : IndexFile) (marks : List ℕ) (reader : IndexReader)
    (granule : Option (SetGranule V)) : Prop :=
  ∃ results, idx.readMarks file marks reader granule = .ok results ∧ List.Forall₂ (Decoded granules file) marks results

theorem allDecoded_nil {reader : IndexReader} {granule : Option (SetGranule V)} :
    AllDecoded granules file [] reader granule := ⟨[], rfl, List.Forall₂.nil⟩

theorem allDecoded_cons {mark : ℕ} {marks : List ℕ} {reader : IndexReader} {granule : Option (SetGranule V)}
    {result : SetGranule V × IndexReader}
    (hread : reader.read file idx.createIndexGranule (idx.deserializeBinary 1) mark granule = .ok result) :
    AllDecoded granules file (mark :: marks) reader granule ↔
      Decoded granules file mark result ∧ AllDecoded granules file marks result.2 (some result.1) := by
  have hcons : idx.readMarks file (mark :: marks) reader granule =
      (idx.readMarks file marks result.2 (some result.1)).map (result :: ·) := by
    rw [readMarks, hread]
    rfl
  unfold AllDecoded
  rw [hcons]
  constructor
  · rintro ⟨results, hrun, hall⟩
    cases hrest : idx.readMarks file marks result.2 (some result.1) with
    | error e =>
      rw [hrest] at hrun
      cases hrun
    | ok rest =>
      rw [hrest] at hrun
      obtain rfl : result :: rest = results := Except.ok.inj hrun
      exact ⟨(List.forall₂_cons.1 hall).1, rest, rfl, (List.forall₂_cons.1 hall).2⟩
  · rintro ⟨hfirst, rest, hrest, hall⟩
    exact ⟨result :: rest, by rw [hrest]; rfl, List.Forall₂.cons hfirst hall⟩

theorem aligned_next (mark : ℕ) :
    Aligned file { stream := some (fileFrom file (mark + 1)), streamMark := mark + 1 } := Or.inr rfl

theorem Holds.read_overflowed (h : Holds file granules) {reader : IndexReader} (hreader : Aligned file reader) {mark : ℕ}
    (hover : OverflowsAt granules mark) (granule : Option (SetGranule V)) :
    reader.read file idx.createIndexGranule (idx.deserializeBinary 1) mark granule =
      .ok ({ granule.getD idx.createIndexGranule with block := [] },
        { stream := some (fileFrom file (mark + 1)), streamMark := mark + 1 }) := by
  obtain ⟨hmark, hover⟩ := hover
  rw [h.read_eq hreader hmark, reads_overflowed hover]
  rfl

theorem decoded_overflowed {mark : ℕ} (hover : OverflowsAt granules mark) (granule : SetGranule V) :
    Decoded granules file mark
      ({ granule with block := [] }, { stream := some (fileFrom file (mark + 1)), streamMark := mark + 1 }) :=
  ⟨⟨hover.1, fun _ => rfl, fun hnot => absurd hover.2 hnot⟩, rfl⟩

theorem Holds.allDecoded_cleared (h : Holds file granules) :
    ∀ {marks : List ℕ} {reader : IndexReader} {granule : SetGranule V}, (∀ mark ∈ marks, mark < granules.length) →
      Aligned file reader → granule.block = [] →
      (AllDecoded granules file marks reader (some granule) ↔ ∀ mark ∈ marks, OverflowsAt granules mark) := by
  intro marks
  induction marks with
  | nil => exact fun _ _ _ => ⟨fun _ mark hm => absurd hm List.not_mem_nil, fun _ => allDecoded_nil⟩
  | cons mark marks ih =>
    intro reader granule hmarks hreader hgranule
    have hmark := hmarks mark List.mem_cons_self
    have hrest := fun m hm => hmarks m (List.mem_cons_of_mem _ hm)
    rw [List.forall_mem_cons]
    by_cases hover : OverflowsAt granules mark
    · rw [allDecoded_cons (h.read_overflowed hreader hover (some granule)),
        ih hrest (aligned_next mark) rfl]
      exact and_congr_left fun _ => ⟨fun _ => hover, fun _ => decoded_overflowed hover granule⟩
    · have hnot : ¬idx.Overflows (granules.get ⟨mark, hmark⟩).toSetGranule := fun hc => hover ⟨hmark, hc⟩
      have hread : reader.read file idx.createIndexGranule (idx.deserializeBinary 1) mark (some granule) =
          .ok ({ block := [] }, { stream := some (idx.columnBytes (granules.get ⟨mark, hmark⟩).toSetGranule ++
            fileFrom file (mark + 1)), streamMark := mark + 1 }) := by
        rw [h.read_eq hreader hmark, Option.getD_some, run_cleared _ hnot hgranule]
        rfl
      rw [allDecoded_cons hread]
      refine ⟨fun hdecoded => ?_, fun hall => absurd hall.1 hover⟩
      obtain ⟨⟨hm, -, htuples⟩, -⟩ := hdecoded.1
      -- the granule stays empty although tuples were written
      have hblock := congrArg SetGranule.size (htuples hnot)
      have hpos := (granules.get ⟨mark, hm⟩).nonempty
      have hsize : SetGranule.size (⟨[], []⟩ : SetGranule V) = 0 := rfl
      rw [hsize] at hblock
      exact absurd hblock (Nat.ne_of_lt hpos)

theorem Holds.allDecoded_iff (h : Holds file granules) (hround : idx.RoundTrips) :
    ∀ {marks : List ℕ} {reader : IndexReader} {granule : Option (SetGranule V)}, (∀ mark ∈ marks, mark < granules.length) →
      Aligned file reader → (granule.getD idx.createIndexGranule).block.length = idx.columns.length →
      (AllDecoded granules file marks reader granule ↔
        marks.Pairwise fun mark later => OverflowsAt granules mark → OverflowsAt granules later) := by
  intro marks
  induction marks with
  | nil => exact fun _ _ _ => ⟨fun _ => List.Pairwise.nil, fun _ => allDecoded_nil⟩
  | cons mark marks ih =>
    intro reader granule hmarks hreader hgranule
    have hmark := hmarks mark List.mem_cons_self
    have hrest := fun m hm => hmarks m (List.mem_cons_of_mem _ hm)
    rw [List.pairwise_cons]
    by_cases hover : OverflowsAt granules mark
    · rw [allDecoded_cons (h.read_overflowed hreader hover granule), h.allDecoded_cleared hrest (aligned_next mark) rfl]
      constructor
      · rintro ⟨-, hall⟩
        exact ⟨fun later hlater _ => hall later hlater, List.pairwise_of_forall_mem_list fun _ _ later hlater _ => hall later hlater⟩
      · rintro ⟨hall, -⟩
        exact ⟨decoded_overflowed hover _, fun later hlater => hall later hlater hover⟩
    · have hnot : ¬idx.Overflows (granules.get ⟨mark, hmark⟩).toSetGranule := fun hc => hover ⟨hmark, hc⟩
      let w := granules.get ⟨mark, hmark⟩
      have hread : reader.read file idx.createIndexGranule (idx.deserializeBinary 1) mark granule =
          .ok ({ block := w.block, setHyperrectangle := idx.extremes w.block },
            { stream := some (fileFrom file (mark + 1)), streamMark := mark + 1 }) := by
        rw [h.read_eq hreader hmark, reads_collected hround _ hnot hgranule]
        rfl
      have hdecoded : Decoded granules file mark ({ block := w.block, setHyperrectangle := idx.extremes w.block },
          { stream := some (fileFrom file (mark + 1)), streamMark := mark + 1 }) :=
        ⟨⟨hmark, fun hc => absurd hc hnot, fun _ => rfl⟩, rfl⟩
      have hmore := @ih { stream := some (fileFrom file (mark + 1)), streamMark := mark + 1 }
        (some { block := w.block, setHyperrectangle := idx.extremes w.block }) hrest (aligned_next mark) w.width
      rw [allDecoded_cons hread, hmore]
      exact ⟨fun hd => ⟨fun later _ hc => absurd hc hover, hd.2⟩, fun hd => ⟨hdecoded, hd.2⟩⟩

end Run

/-- **Set index granules read into one object.** Every read leaves the tuples of its mark with their
extremes, or an empty granule for an overflowed one, and the stream at the next granule, exactly
when no mark that did not overflow is read after one that did. -/
theorem readMarks_decoded_iff (hround : idx.RoundTrips) (granules : List (Collected idx)) :
    ∃ file, idx.writeGranules (granules.map Collected.toSetGranule) = .ok file ∧
      ∀ marks : List ℕ, (∀ mark ∈ marks, mark < granules.length) →
        (AllDecoded granules file marks {} none ↔
          marks.Pairwise fun mark later => OverflowsAt granules mark → OverflowsAt granules later) := by
  obtain ⟨file, hfile, hdata, hmarks⟩ := exists_writeGranules granules
  refine ⟨file, hfile, fun marks hm => ?_⟩
  exact Holds.allDecoded_iff ⟨hdata, hmarks⟩ hround hm (Or.inl ⟨rfl, rfl⟩) (by simp [createIndexGranule])

/-! ## A column of bytes -/

namespace ByteIndex

/-- A column of bytes. -/
def column : SetColumn ℕ where
  holds n := n < 2 ^ 8
  serialize values := values.map UInt8.ofNat
  deserialize n := do
    let bytes ← Reader.bytes n
    return bytes.map UInt8.toNat
  getExtremes values := (values.foldl min (values.headD 0), values.foldl max 0)

/-- Sets of one tuple at most. -/
def index : MergeTreeIndexSet ℕ := ⟨"idx", 1, [column]⟩

theorem roundTrips : index.RoundTrips := by
  intro c hc values hvalues
  obtain rfl : c = column := List.mem_singleton.1 hc
  have hback : (values.map UInt8.ofNat).map UInt8.toNat = values := by
    rw [List.map_map]
    exact (List.map_congr_left fun n hn => UInt8.toNat_ofNat_of_lt' (hvalues n hn)).trans (List.map_id values)
  have hread := (Reads.bytes (values.map UInt8.ofNat)).bind_pure (f := List.map UInt8.toNat)
  rwa [hback, List.length_map] at hread

/-- A granule of two tuples and one of one tuple. -/
def granules : List (Collected index) :=
  [{ block := [[1, 2]], setHyperrectangle := [(1, 2)], width := rfl, rows := by decide, nonempty := by decide,
     size_lt := by decide, holds := by simp [index, column] },
   { block := [[7]], setHyperrectangle := [(7, 7)], width := rfl, rows := by decide, nonempty := by decide,
     size_lt := by decide, holds := by simp [index, column] }]

theorem overflowsAt_zero : OverflowsAt granules 0 := ⟨by decide, by decide⟩

end ByteIndex

theorem readMarks_decoded_iff_bytes :
    ∃ file, ByteIndex.index.writeGranules (ByteIndex.granules.map Collected.toSetGranule) = .ok file ∧
      AllDecoded ByteIndex.granules file [1, 0] {} none := by
  obtain ⟨file, hfile, hiff⟩ := readMarks_decoded_iff ByteIndex.roundTrips ByteIndex.granules
  refine ⟨file, hfile, (hiff [1, 0] (by decide)).2 ?_⟩
  rw [List.pairwise_pair]
  exact fun _ => ByteIndex.overflowsAt_zero

/-- After the overflowed granule the other one is read as empty. -/
theorem readMarks_overflowed_first :
    ∃ file, ByteIndex.index.writeGranules (ByteIndex.granules.map Collected.toSetGranule) = .ok file ∧
      ¬AllDecoded ByteIndex.granules file [0, 1] {} none := by
  refine ⟨⟨[0, 0, 0, 0, 0, 0, 0, 0, 1, 0, 0, 0, 0, 0, 0, 0, 7], [0, 8]⟩, by decide +kernel, ?_⟩
  rintro ⟨results, hrun, hall⟩
  have hresults : ByteIndex.index.readMarks ⟨[0, 0, 0, 0, 0, 0, 0, 0, 1, 0, 0, 0, 0, 0, 0, 0, 7], [0, 8]⟩ [0, 1] {} none =
      .ok [({ block := [] }, ⟨some [1, 0, 0, 0, 0, 0, 0, 0, 7], 1⟩), ({ block := [] }, ⟨some [7], 2⟩)] := by decide +kernel
  obtain rfl := Except.ok.inj (hresults.symm.trans hrun)
  obtain ⟨-, hrest⟩ := List.forall₂_cons.1 hall
  obtain ⟨⟨_, -, htuples⟩, -⟩ := (List.forall₂_cons.1 hrest).1
  have hnot : ¬ByteIndex.index.Overflows { block := [[7]], setHyperrectangle := [(7, 7)] } := by decide
  have hblock : [] = [[7]] := congrArg SetGranule.block (htuples hnot)
  exact List.cons_ne_nil _ _ hblock.symm

end MergeTreeIndexSet

end MergeTree
