import MergeTree.Spec.PostingListCodec
import MergeTree.Proof.BitpackingBlockCodec

/-!
# Posting lists are read back

A segment is a list of blocks of row ids. `payload` is what the encoder writes of it and
`segmentBytes` puts the header in front.

* `decodeBlocks_reads`: the blocks of a segment are read back. A block of width zero leaves
  the buffer as it is, so it must be the first one.
* `Progress` and `Started`: the encoder after whole blocks and inside a segment; its steps
  are `Progress.insertBlock` and `Started.insertRowId`.
* `encodePostingList_eq`: what the encoder writes.
* `encodePostingList_decode`: **the segments that were recorded are read back and make up
  the list**, unless one segment holds all `2 ^ 32` row ids. Then its cardinality is written
  as zero (`all_row_ids`).
-/

namespace MergeTree

open BitpackingBlockCodec PostingListCodecImpl

/-! ## Differences -/

theorem sub32_lt (a b : ℕ) : sub32 a b < 2 ^ 32 := Nat.mod_lt _ (by decide)

theorem add_sub32 {a b : ℕ} (ha : a < 2 ^ 32) (hb : b < 2 ^ 32) : (b + sub32 a b) % 2 ^ 32 = a := by
  unfold sub32
  omega

theorem sub32_ne_zero {a b : ℕ} (ha : a < 2 ^ 32) (hlt : b < a) : sub32 a b ≠ 0 := by
  unfold sub32
  omega

theorem length_differencesFrom (prev : ℕ) (ids : List ℕ) : (differencesFrom prev ids).length = ids.length := by
  induction ids generalizing prev with
  | nil => rfl
  | cons x ids ih => rw [differencesFrom, List.length_cons, List.length_cons, ih]

theorem differencesFrom_lt (prev : ℕ) (ids : List ℕ) : ∀ d ∈ differencesFrom prev ids, d < 2 ^ 32 := by
  induction ids generalizing prev with
  | nil => intro d hd; cases hd
  | cons x ids ih =>
    intro d hd
    rcases List.mem_cons.1 hd with rfl | hd
    · exact sub32_lt x prev
    · exact ih x d hd

/-- **The scan undoes the differences.** -/
theorem inclusiveScan_differencesFrom {prev : ℕ} {ids : List ℕ} (hprev : prev < 2 ^ 32) (hids : ∀ x ∈ ids, x < 2 ^ 32) :
    inclusiveScan prev (differencesFrom prev ids) = ids := by
  induction ids generalizing prev with
  | nil => rfl
  | cons x ids ih =>
    have hx := hids x List.mem_cons_self
    rw [differencesFrom, inclusiveScan, add_sub32 hx hprev, ih hx fun y hy => hids y (List.mem_cons_of_mem x hy)]

theorem getLastD_append (l m : List ℕ) (a : ℕ) : (l ++ m).getLastD a = m.getLastD (l.getLastD a) := by
  induction m using List.reverseRecOn with
  | nil => simp
  | append_singleton m x _ => rw [← List.append_assoc, List.getLastD_concat, List.getLastD_concat]

theorem headD_append {l m : List ℕ} (h : l ≠ []) (a : ℕ) : (l ++ m).headD a = l.headD a := by
  cases l with
  | nil => exact absurd rfl h
  | cons x l => rfl

theorem getLastD_append_ne_nil {l m : List ℕ} (h : m ≠ []) (a b : ℕ) : (l ++ m).getLastD a = m.getLastD b := by
  rw [getLastD_append]
  rcases List.eq_nil_or_concat m with hnil | ⟨m', x, rfl⟩
  · exact absurd hnil h
  · rw [List.concat_eq_append, List.getLastD_concat, List.getLastD_concat]

theorem flatten_concat (blocks : List (List ℕ)) (block : List ℕ) :
    (blocks ++ [block]).flatten = blocks.flatten ++ block := by simp

theorem differencesFrom_concat (prev : ℕ) (ids : List ℕ) (x : ℕ) :
    differencesFrom prev (ids ++ [x]) = differencesFrom prev ids ++ [sub32 x (ids.getLastD prev)] := by
  induction ids generalizing prev with
  | nil => rfl
  | cons y ids ih =>
    rw [List.cons_append, differencesFrom, ih, differencesFrom, List.cons_append]
    have hlast : (y :: ids).getLastD prev = ids.getLastD y := getLastD_append [y] ids prev
    rw [hlast]

theorem set_adjacentDifference (prev : ℕ) {ids : List ℕ} (hids : ids ≠ []) :
    (adjacentDifference ids).set 0 (sub32 ((adjacentDifference ids).getD 0 0) prev) = differencesFrom prev ids := by
  cases ids with
  | nil => exact absurd rfl hids
  | cons x ids => rfl

/-! ## Blocks -/

theorem blockSize_pos : 0 < blockSize := by decide

/-- A block as it is written: the width, and the packed values. -/
def blockBytes (values : List ℕ) : List UInt8 :=
  UInt8.ofNat (maxbitsLength values) :: packingLength values values.length (maxbitsLength values)

/-- The blocks of a segment, as differences from `prev` on. -/
def blocksPayload (prev : ℕ) : List (List ℕ) → List UInt8
  | [] => []
  | block :: blocks => blockBytes (differencesFrom prev block) ++ blocksPayload (block.getLastD prev) blocks

theorem blocksPayload_concat (prev : ℕ) (blocks : List (List ℕ)) (block : List ℕ) :
    blocksPayload prev (blocks ++ [block]) =
      blocksPayload prev blocks ++ blockBytes (differencesFrom (blocks.flatten.getLastD prev) block) := by
  induction blocks generalizing prev with
  | nil => simp [blocksPayload]
  | cons b blocks ih =>
    rw [List.cons_append, blocksPayload, ih, blocksPayload, List.flatten_cons, getLastD_append, List.append_assoc]

theorem maxbitsLength_le {values : List ℕ} (hvalues : ∀ v ∈ values, v < 2 ^ 32) : maxbitsLength values ≤ 32 :=
  (maxbitsLength_le_iff hvalues).2 hvalues

theorem lt_of_maxbitsLength {values : List ℕ} (hvalues : ∀ v ∈ values, v < 2 ^ 32) :
    ∀ v ∈ values, v < 2 ^ maxbitsLength values :=
  (maxbitsLength_le_iff hvalues).1 le_rfl

theorem length_resizeSegment (buffer : List ℕ) (count : ℕ) : (resizeSegment buffer count).length = count := by
  unfold resizeSegment
  rw [List.length_append, List.length_take, List.length_replicate]
  omega

theorem Reads.sized {α : Type} {P : ℕ → Prop} [DecidablePred P] {e : ℕ → String} {r : Reader α} {bytes : List UInt8} {a : α}
    (hP : ∀ n, bytes.length ≤ n → P n) (h : Reads r bytes a) :
    Reads (do
      let n ← inputSize
      Reader.check (P n) (e n)
      r) bytes a := by
  intro rest
  have hlength : P (bytes ++ rest).length := hP _ (by rw [List.length_append]; omega)
  have hcheck := Reads.check (e := e (bytes ++ rest).length) hlength (bytes ++ rest)
  rw [List.nil_append] at hcheck
  change ((do
    Reader.check (P (bytes ++ rest).length) (e (bytes ++ rest).length)
    r : Reader α).run (bytes ++ rest)) = _
  rw [StateT.run_bind, hcheck]
  exact h rest

/-- **A block is read back** into a buffer that is new or when some difference is not zero. -/
theorem decodeBlock_reads {block buffer : List ℕ} {prev : ℕ} (hprev : prev < 2 ^ 32) (hblock : ∀ x ∈ block, x < 2 ^ 32)
    (hzero : buffer = [] ∨ ∃ d ∈ differencesFrom prev block, d ≠ 0) :
    Reads (decodeBlock block.length prev buffer) (blockBytes (differencesFrom prev block))
      (block.getLastD prev, block) := by
  have hlt := differencesFrom_lt prev block
  have hlen := length_differencesFrom prev block
  have hbits := maxbitsLength_le hlt
  have hstale : maxbitsLength (differencesFrom prev block) = 0 →
      ∀ x ∈ (resizeSegment buffer block.length).take (differencesFrom prev block).length, x = 0 := by
    intro hwidth x hx
    rcases hzero with rfl | ⟨d, hd, hne⟩
    · have hmem := List.mem_of_mem_take hx
      unfold resizeSegment at hmem
      simp only [List.take_nil, List.nil_append] at hmem
      exact List.eq_of_mem_replicate hmem
    · have hone := lt_of_maxbitsLength hlt d hd
      rw [hwidth] at hone
      omega
  have hvalues := decode_reads hbits (lt_of_maxbitsLength hlt)
    (show (differencesFrom prev block).length ≤ (resizeSegment buffer block.length).length by
      rw [length_resizeSegment, hlen]) hstale
  have hdrop : (resizeSegment buffer block.length).drop block.length = [] := by
    rw [List.drop_eq_nil_iff, length_resizeSegment]
  have hsize := length_packingLength hbits (differencesFrom prev block)
  rw [hlen] at hvalues hsize
  rw [hdrop, List.append_nil] at hvalues
  unfold decodeBlock blockBytes
  rw [hlen]
  refine Reads.sized (P := fun n => 0 < n) (fun n hn => ?_) ?_
  · rw [List.length_cons] at hn
    omega
  refine (Codec.byte.reads (maxbitsLength (differencesFrom prev block)) (by change _ < 256; omega)).bind ?_
  refine (Reads.check hbits).nil_bind ?_
  refine Reads.sized (fun n hn => hsize.ge.trans hn) ?_
  refine hvalues.bind_nil ?_
  refine (Reads.check hsize.symm).nil_bind ?_
  rw [inclusiveScan_differencesFrom hprev hblock]
  exact Reads.pure _

/-- **The blocks of a segment are read back.** The row ids grow, so only the very first
difference can be zero. -/
theorem decodeBlocks_reads {blocks : List (List ℕ)} {prev : ℕ} {buffer : List ℕ} (hprev : prev < 2 ^ 32)
    (hnonempty : ∀ b ∈ blocks, b ≠ []) (hlt : ∀ x ∈ blocks.flatten, x < 2 ^ 32)
    (hsorted : blocks.flatten.Pairwise (· < ·)) (hzero : buffer = [] ∨ ∀ x ∈ blocks.flatten, prev < x) :
    Reads (decodeBlocks (blocks.map List.length) prev buffer) (blocksPayload prev blocks) blocks.flatten := by
  induction blocks generalizing prev buffer with
  | nil => exact Reads.pure []
  | cons block blocks ih =>
    have hne := hnonempty block List.mem_cons_self
    rw [List.flatten_cons] at hlt hsorted hzero
    obtain ⟨_, hrest, hcross⟩ := List.pairwise_append.1 hsorted
    have hblock : ∀ x ∈ block, x < 2 ^ 32 := fun x hx => hlt x (List.mem_append_left _ hx)
    have hfirst : buffer = [] ∨ ∃ d ∈ differencesFrom prev block, d ≠ 0 := by
      rcases hzero with hnil | hprevlt
      · exact Or.inl hnil
      · right
        cases block with
        | nil => exact absurd rfl hne
        | cons x ids =>
          exact ⟨sub32 x prev, List.mem_cons_self,
            sub32_ne_zero (hblock x List.mem_cons_self) (hprevlt x (by simp))⟩
    have hlast : block.getLastD prev ∈ block := by
      rcases List.eq_nil_or_concat block with hnil | ⟨l, x, rfl⟩
      · exact absurd hnil hne
      · simp
    have hafter : block = [] ∨ ∀ x ∈ blocks.flatten, block.getLastD prev < x := Or.inr fun x hx => hcross _ hlast x hx
    have hnext := ih (hblock _ hlast) (fun b hb => hnonempty b (List.mem_cons_of_mem block hb))
      (fun x hx => hlt x (List.mem_append_right _ hx)) hrest hafter
    rw [List.map_cons, List.flatten_cons]
    exact (decodeBlock_reads hprev hblock hfirst).bind (hnext.bind_pure (f := fun postings => block ++ postings))

/-! ## Segments -/

/-- What is written of a segment after its header. -/
def payload (segment : List (List ℕ)) : List UInt8 := blocksPayload (segment.flatten.headD 0) segment

/-- The compressed data of several segments. -/
def payloads (segments : List (List (List ℕ))) : List UInt8 := segments.flatMap payload

/-- The descriptor of a segment that starts at `offset` with the row id `first`. -/
def descriptorOf (offset first : ℕ) (blocks : List (List ℕ)) : SegmentDescriptor where
  cardinality := blocks.flatten.length % 2 ^ 32
  compressedDataOffset := offset
  compressedDataSize := (blocksPayload first blocks).length
  rowIdBegin := first
  rowIdEnd := blocks.flatten.getLastD 0

/-- The descriptors of segments that lie one after the other. -/
def descriptorsFrom (offset : ℕ) : List (List (List ℕ)) → List SegmentDescriptor
  | [] => []
  | segment :: segments =>
    descriptorOf offset (segment.flatten.headD 0) segment :: descriptorsFrom (offset + (payload segment).length) segments

theorem payloads_concat (segments : List (List (List ℕ))) (segment : List (List ℕ)) :
    payloads (segments ++ [segment]) = payloads segments ++ payload segment := by
  simp [payloads]

theorem descriptorsFrom_concat (offset : ℕ) (segments : List (List (List ℕ))) (segment : List (List ℕ)) :
    descriptorsFrom offset (segments ++ [segment]) = descriptorsFrom offset segments ++
      [descriptorOf (offset + (payloads segments).length) (segment.flatten.headD 0) segment] := by
  induction segments generalizing offset with
  | nil => rfl
  | cons s segments ih =>
    have hpayloads : payloads (s :: segments) = payload s ++ payloads segments := rfl
    rw [List.cons_append, descriptorsFrom, ih, descriptorsFrom, hpayloads, List.length_append, Nat.add_assoc]
    rfl

variable {impl : PostingListCodecImpl} {segments : List (List (List ℕ))} {blocks : List (List ℕ)}
  {rest block : List ℕ} {first M : ℕ}

/-- **A block is encoded**: its bytes go to the end of the data, and the last descriptor
counts it. -/
theorem encodeBlock_eq {values : List ℕ} {ds : List SegmentDescriptor} {d : SegmentDescriptor}
    (hd : impl.segmentDescriptors = ds ++ [d]) (hvalues : ∀ v ∈ values, v < 2 ^ 32) :
    impl.encodeBlock values = .ok { impl with
      compressedData := impl.compressedData ++ blockBytes values
      segmentDescriptors := ds ++ [{ d with
        cardinality := (d.cardinality + values.length) % 2 ^ 32
        rowIdEnd := impl.prevRowId
        compressedDataSize := (impl.compressedData ++ blockBytes values).length - d.compressedDataOffset }] } := by
  have hbits := maxbitsLength_le hvalues
  have hsize := length_packingLength hbits values
  have hencode : BitpackingBlockCodec.encode values (maxbitsLength values) =
      .ok (packingLength values values.length (maxbitsLength values)) := by
    unfold BitpackingBlockCodec.encode
    rw [if_neg (by omega)]
  unfold encodeBlock calculateNeededBytesAndMaxBits
  dsimp only
  rw [hencode]
  simp only [bind, Except.bind]
  rw [hsize, if_neg (not_not.2 rfl)]
  simp only [setBack, hd, List.dropLast_concat, List.getLast?_concat, Option.map_some, Option.toList_some]
  rfl

/-- **The encoder inside a segment**: `blocks` are encoded, `rest` is pending. -/
structure Started (impl : PostingListCodecImpl) (segments : List (List (List ℕ))) (blocks : List (List ℕ))
    (rest : List ℕ) (first : ℕ) : Prop where
  data : impl.compressedData = payloads segments ++ blocksPayload first blocks
  descriptors : impl.segmentDescriptors =
    descriptorsFrom 0 segments ++ [descriptorOf (payloads segments).length first blocks]
  current : impl.currentSegment = differencesFrom (blocks.flatten.getLastD first) rest
  prev : impl.prevRowId = (blocks.flatten ++ rest).getLastD first
  count : impl.rowIdsInCurrentSegment = (blocks.flatten ++ rest).length

/-- **The encoder between segments.** -/
structure Between (impl : PostingListCodecImpl) (segments : List (List (List ℕ))) : Prop where
  data : impl.compressedData = payloads segments
  descriptors : impl.segmentDescriptors = descriptorsFrom 0 segments
  current : impl.currentSegment = []
  count : impl.rowIdsInCurrentSegment = 0

theorem Between.start (h : Between impl segments) (rowId : ℕ) :
    Started (impl.startSegment rowId) segments [] [] rowId := by
  refine ⟨?_, ?_, h.current, rfl, h.count⟩
  · unfold startSegment
    rw [h.data]
    exact (List.append_nil _).symm
  · unfold startSegment
    rw [h.data, h.descriptors]
    rfl

theorem Started.encodeBlock (impl : PostingListCodecImpl) (hdata : impl.compressedData = payloads segments ++ blocksPayload first blocks)
    (hdescriptors : impl.segmentDescriptors =
      descriptorsFrom 0 segments ++ [descriptorOf (payloads segments).length first blocks])
    (hprev : impl.prevRowId = (blocks.flatten ++ block).getLastD first) (hblock : block ≠ []) :
    ∃ impl', impl.encodeBlock (differencesFrom (blocks.flatten.getLastD first) block) = .ok impl' ∧
      impl' = { impl with
        compressedData := payloads segments ++ blocksPayload first (blocks ++ [block])
        segmentDescriptors := descriptorsFrom 0 segments ++
          [descriptorOf (payloads segments).length first (blocks ++ [block])] } := by
  have hlast : (blocks.flatten ++ block).getLastD first = (blocks ++ [block]).flatten.getLastD 0 := by
    rw [flatten_concat, getLastD_append_ne_nil hblock first 0, getLastD_append_ne_nil hblock 0 0]
  have hlength : (blocks ++ [block]).flatten.length = blocks.flatten.length + block.length := by
    rw [flatten_concat, List.length_append]
  refine ⟨_, ?_, rfl⟩
  rw [encodeBlock_eq hdescriptors (differencesFrom_lt _ _), hdata, hprev, hlast, length_differencesFrom,
    List.append_assoc, ← blocksPayload_concat]
  congr 4
  unfold descriptorOf
  rw [hlength]
  simp only [List.length_append, SegmentDescriptor.mk.injEq, true_and, and_true]
  omega

theorem flushCurrentSegment_nil (h : impl.currentSegment = []) : impl.flushCurrentSegment =
    .ok { impl with currentSegment := [], rowIdsInCurrentSegment := 0, prevRowId := 0 } := by
  unfold flushCurrentSegment
  rw [if_neg (not_not.2 h)]
  rfl

theorem Started.close (h : Started impl segments blocks rest first) (hfirst : first = blocks.flatten.headD 0) :
    impl.compressedData = payloads (segments ++ [blocks]) ∧
      impl.segmentDescriptors = descriptorsFrom 0 (segments ++ [blocks]) := by
  subst hfirst
  refine ⟨?_, ?_⟩
  · rw [payloads_concat, h.data]
    rfl
  · rw [descriptorsFrom_concat, h.descriptors, Nat.zero_add]

/-! ## Whole blocks -/

/-- The row ids of several segments. -/
def rowIdsOf (segments : List (List (List ℕ))) : List ℕ := (segments.map List.flatten).flatten

/-- A segment of whole blocks that has as many row ids as fit. -/
structure Full (M : ℕ) (segment : List (List ℕ)) : Prop where
  length : segment.flatten.length = M
  whole : ∀ b ∈ segment, b.length = blockSize

/-- **The encoder after whole blocks**: full segments, and whole blocks of the next one. -/
structure Progress (M : ℕ) (impl : PostingListCodecImpl) (segments : List (List (List ℕ))) (blocks : List (List ℕ)) :
    Prop where
  max : impl.maxRowidsInSegment = M
  full : ∀ s ∈ segments, Full M s
  whole : ∀ b ∈ blocks, b.length = blockSize
  room : blocks.flatten.length < M
  between : blocks = [] → Between impl segments
  started : blocks ≠ [] → Started impl segments blocks [] (blocks.flatten.headD 0)

theorem length_flatten_whole (h : ∀ b ∈ blocks, b.length = blockSize) :
    blocks.flatten.length = blockSize * blocks.length := by
  induction blocks with
  | nil => rfl
  | cons b blocks ih =>
    rw [List.flatten_cons, List.length_append, ih fun c hc => h c (List.mem_cons_of_mem b hc), List.length_cons,
      h b List.mem_cons_self, Nat.mul_succ, Nat.add_comm]

theorem rowIdsOf_concat (segments : List (List (List ℕ))) (segment : List (List ℕ)) :
    rowIdsOf (segments ++ [segment]) = rowIdsOf segments ++ segment.flatten := by
  simp [rowIdsOf]

theorem flatten_ne_nil (h : ∀ b ∈ blocks, b.length = blockSize) (hne : blocks ≠ []) : blocks.flatten ≠ [] := by
  have hlength := length_flatten_whole h
  have hpos : 0 < blocks.length := List.length_pos_iff.2 hne
  intro hnil
  rw [hnil, List.length_nil, blockSize] at hlength
  omega

theorem Progress.start (h : Progress M impl segments blocks) (ids : List ℕ) :
    ∃ impl', (if impl.rowIdsInCurrentSegment = 0 then impl.startSegment (ids.headD 0) else impl) = impl' ∧
      Started impl' segments blocks [] ((blocks.flatten ++ ids).headD 0) ∧ impl'.maxRowidsInSegment = M := by
  by_cases hblocks : blocks = []
  · have hbetween := h.between hblocks
    subst hblocks
    rw [if_pos hbetween.count]
    exact ⟨_, rfl, hbetween.start _, h.max⟩
  · have hstarted := h.started hblocks
    have hne := flatten_ne_nil h.whole hblocks
    have hcount : ¬ impl.rowIdsInCurrentSegment = 0 := by
      rw [hstarted.count, List.append_nil, List.length_eq_zero_iff]
      exact hne
    rw [if_neg hcount, headD_append hne]
    exact ⟨impl, rfl, hstarted, h.max⟩

theorem Progress.encode (h : Progress M impl segments blocks) (hblock : block ≠ []) : ∃ impl',
    impl.insertBlock block =
      (if impl'.rowIdsInCurrentSegment = impl'.maxRowidsInSegment then impl'.flushCurrentSegment else .ok impl') ∧
    (block.length = blockSize →
      Started impl' segments (blocks ++ [block]) [] ((blocks ++ [block]).flatten.headD 0)) ∧
    impl'.maxRowidsInSegment = M := by
  obtain ⟨started, hstart, hstarted, hmax⟩ := h.start block
  have hprev : block.getLastD 0 = (blocks.flatten ++ block).getLastD ((blocks.flatten ++ block).headD 0) :=
    (getLastD_append_ne_nil hblock _ _).symm
  obtain ⟨impl', hencode, heq⟩ := Started.encodeBlock { started with
    rowIdsInCurrentSegment := started.rowIdsInCurrentSegment + blockSize
    totalRowIds := started.totalRowIds + blockSize
    prevRowId := block.getLastD 0 } hstarted.data hstarted.descriptors hprev hblock
  have hbase := hstarted.prev
  rw [List.append_nil] at hbase
  refine ⟨impl', ?_, fun hlength => ?_, ?_⟩
  · unfold PostingListCodecImpl.insertBlock
    dsimp only
    rw [hstart, hbase, set_adjacentDifference _ hblock, hencode]
    rfl
  · have hcount := hstarted.count
    rw [List.append_nil] at hcount
    rw [flatten_concat, heq]
    refine ⟨rfl, rfl, hstarted.current, ?_, ?_⟩
    · rw [List.append_nil, flatten_concat]
      exact hprev
    · rw [List.append_nil, flatten_concat, List.length_append, hlength, ← hcount]
  · rw [heq]
    exact hmax

/-- **A whole block is inserted.** -/
theorem Progress.insertBlock (h : Progress M impl segments blocks) (hM : blockSize ∣ M)
    (hblock : block.length = blockSize) : ∃ impl' segments' blocks', impl.insertBlock block = .ok impl' ∧
      Progress M impl' segments' blocks' ∧
      rowIdsOf segments' ++ blocks'.flatten = rowIdsOf segments ++ (blocks.flatten ++ block) := by
  have hne : block ≠ [] := by
    rintro rfl
    cases hblock
  have hwhole : ∀ b ∈ blocks ++ [block], b.length = blockSize := by
    intro b hb
    rcases List.mem_append.1 hb with hb | hb
    · exact h.whole b hb
    · rw [List.mem_singleton.1 hb]
      exact hblock
  have hlength : (blocks ++ [block]).flatten.length = blocks.flatten.length + blockSize := by
    rw [flatten_concat, List.length_append, hblock]
  have hle : blocks.flatten.length + blockSize ≤ M := by
    obtain ⟨m, rfl⟩ := hM
    have hroom := h.room
    rw [length_flatten_whole h.whole] at hroom ⊢
    have hlt : blocks.length < m := lt_of_mul_lt_mul_left hroom (Nat.zero_le _)
    calc blockSize * blocks.length + blockSize = blockSize * (blocks.length + 1) := (Nat.mul_succ _ _).symm
      _ ≤ blockSize * m := Nat.mul_le_mul_left _ hlt
  obtain ⟨impl', hinsert, hnext, hmax⟩ := h.encode hne
  have hstarted := hnext hblock
  have hcount := hstarted.count
  rw [List.append_nil, hlength] at hcount
  rw [hinsert, hmax, hcount]
  by_cases hfull : blocks.flatten.length + blockSize = M
  · -- the segment is full
    obtain ⟨hdata, hdescriptors⟩ := hstarted.close rfl
    rw [if_pos hfull, flushCurrentSegment_nil hstarted.current]
    refine ⟨_, segments ++ [blocks ++ [block]], [], rfl, ⟨hmax, ?_, fun b hb => (nomatch hb), ?_,
      fun _ => ⟨hdata, hdescriptors, rfl, rfl⟩, fun hnil => absurd rfl hnil⟩, ?_⟩
    · intro s hs
      rcases List.mem_append.1 hs with hs | hs
      · exact h.full s hs
      · obtain rfl := List.mem_singleton.1 hs
        exact ⟨hlength.trans hfull, hwhole⟩
    · have hroom := h.room
      change 0 < M
      omega
    · rw [rowIdsOf_concat, flatten_concat, List.flatten_nil, List.append_nil]
  · rw [if_neg hfull]
    refine ⟨impl', segments, blocks ++ [block], rfl, ⟨hmax, h.full, hwhole, ?_, fun hnil => ?_, fun _ => hstarted⟩, ?_⟩
    · rw [hlength]
      omega
    · simp at hnil
    · rw [flatten_concat]

theorem Progress.insertAll (h : Progress M impl segments blocks) (hM : blockSize ∣ M) (ids : List ℕ) {n : ℕ}
    (hn : n = ids.length / blockSize) : ∃ impl' segments' blocks' rest,
      PostingListCodecImpl.insertAll n ids impl = rest.foldlM insertRowId impl' ∧ Progress M impl' segments' blocks' ∧
        rest.length < blockSize ∧
        rowIdsOf segments' ++ (blocks'.flatten ++ rest) = rowIdsOf segments ++ (blocks.flatten ++ ids) := by
  induction n generalizing ids impl segments blocks with
  | zero =>
    refine ⟨impl, segments, blocks, ids, rfl, h, ?_, rfl⟩
    exact Nat.lt_of_div_eq_zero (by decide) hn.symm
  | succ n ih =>
    have hle : blockSize ≤ ids.length := by
      by_contra hlt
      rw [Nat.div_eq_of_lt (by omega)] at hn
      omega
    have htake : (ids.take blockSize).length = blockSize := List.length_take_of_le hle
    have hdrop : n = (ids.drop blockSize).length / blockSize := by
      have hdiv := Nat.div_eq_sub_div blockSize_pos hle
      rw [List.length_drop]
      omega
    obtain ⟨impl₁, segments₁, blocks₁, hinsert, h₁, hids₁⟩ := h.insertBlock hM htake
    obtain ⟨impl', segments', blocks', rest, hall, h', hrest, hids⟩ := ih h₁ _ hdrop
    refine ⟨impl', segments', blocks', rest, ?_, h', hrest, ?_⟩
    · rw [PostingListCodecImpl.insertAll, hinsert, ← hall]
      rfl
    · rw [hids, ← List.append_assoc, hids₁, List.append_assoc, List.append_assoc, List.take_append_drop]

/-! ## The rest of the row ids -/

theorem Between.insertRowId (h : Between impl segments) (rowId : ℕ) : ∃ impl',
    impl.insertRowId rowId = .ok impl' ∧ Started impl' segments [] [rowId] rowId ∧
      impl'.maxRowidsInSegment = impl.maxRowidsInSegment := by
  have hstart := h.start rowId
  refine ⟨{ impl.startSegment rowId with
    currentSegment := (impl.startSegment rowId).currentSegment ++ [sub32 rowId (impl.startSegment rowId).prevRowId]
    rowIdsInCurrentSegment := (impl.startSegment rowId).rowIdsInCurrentSegment + 1
    totalRowIds := (impl.startSegment rowId).totalRowIds + 1 }, ?_, ⟨hstart.data, hstart.descriptors, ?_, ?_, ?_⟩, rfl⟩
  · unfold PostingListCodecImpl.insertRowId
    rw [if_pos h.count]
    rfl
  · dsimp only
    rw [hstart.current, hstart.prev]
    rfl
  · exact hstart.prev
  · dsimp only
    rw [hstart.count]
    rfl

/-- **A row id is inserted** into a started segment. It fills no block and no segment. -/
theorem Started.insertRowId (h : Started impl segments blocks rest first) (hne : blocks.flatten ++ rest ≠ [])
    (hwhole : ∀ b ∈ blocks, b.length = blockSize) (hM : blockSize ∣ impl.maxRowidsInSegment)
    (hrest : rest.length + 1 < blockSize) (rowId : ℕ) : ∃ impl',
      impl.insertRowId rowId = .ok impl' ∧ Started impl' segments blocks (rest ++ [rowId]) first ∧
        impl'.maxRowidsInSegment = impl.maxRowidsInSegment := by
  have hcount : ¬ impl.rowIdsInCurrentSegment = 0 := by
    rw [h.count, List.length_eq_zero_iff]
    exact hne
  have hlast : impl.prevRowId = rest.getLastD (blocks.flatten.getLastD first) := by
    rw [h.prev, getLastD_append]
  have hcurrent : impl.currentSegment ++ [sub32 rowId impl.prevRowId] =
      differencesFrom (blocks.flatten.getLastD first) (rest ++ [rowId]) := by
    rw [differencesFrom_concat, h.current, hlast]
  have hblock : ¬ (impl.currentSegment ++ [sub32 rowId impl.prevRowId]).length = blockSize := by
    rw [hcurrent, length_differencesFrom, List.length_append, List.length_singleton]
    omega
  have hfull : ¬ impl.rowIdsInCurrentSegment + 1 = impl.maxRowidsInSegment := by
    obtain ⟨m, hm⟩ := hM
    rw [h.count, hm, List.length_append, length_flatten_whole hwhole]
    unfold blockSize at *
    omega
  refine ⟨{ impl with
    currentSegment := impl.currentSegment ++ [sub32 rowId impl.prevRowId]
    prevRowId := rowId
    rowIdsInCurrentSegment := impl.rowIdsInCurrentSegment + 1
    totalRowIds := impl.totalRowIds + 1 }, ?_, ⟨h.data, h.descriptors, hcurrent, ?_, ?_⟩, rfl⟩
  · unfold PostingListCodecImpl.insertRowId
    rw [if_neg hcount]
    dsimp only
    rw [if_neg hblock]
    simp only [pure, Except.pure, bind, Except.bind]
    rw [if_neg hfull]
  · rw [← List.append_assoc, List.getLastD_concat]
  · rw [h.count, ← List.append_assoc, @List.length_append _ _ [rowId]]
    rfl

/-- **The rest of the row ids is inserted**, one by one. -/
theorem Progress.insertRest (h : Progress M impl segments blocks) (hM : blockSize ∣ M)
    (hrest : rest.length < blockSize) : ∃ impl', rest.foldlM PostingListCodecImpl.insertRowId impl = .ok impl' ∧
      (rest = [] → impl' = impl) ∧
      (rest ≠ [] → Started impl' segments blocks rest ((blocks.flatten ++ rest).headD 0) ∧
        impl'.maxRowidsInSegment = M) := by
  induction rest using List.reverseRecOn with
  | nil => exact ⟨impl, rfl, fun _ => rfl, fun hne => absurd rfl hne⟩
  | append_singleton rest x ih =>
    rw [List.length_append, List.length_singleton] at hrest
    obtain ⟨impl₁, hfold, hnil, hsome⟩ := ih (by omega)
    have hstep : ∃ impl', impl₁.insertRowId x = .ok impl' ∧
        Started impl' segments blocks (rest ++ [x]) ((blocks.flatten ++ (rest ++ [x])).headD 0) ∧
          impl'.maxRowidsInSegment = M := by
      by_cases hempty : blocks.flatten ++ rest = []
      · -- the first row id of a new segment
        obtain ⟨hflatten, rfl⟩ := List.append_eq_nil_iff.1 hempty
        have hblocks : blocks = [] := by
          by_contra hne
          exact flatten_ne_nil h.whole hne hflatten
        subst hblocks
        rw [hnil rfl]
        obtain ⟨impl', hinsert, hstarted, hmax⟩ := (h.between rfl).insertRowId x
        exact ⟨impl', hinsert, hstarted, hmax.trans h.max⟩
      · have hstarted : Started impl₁ segments blocks rest ((blocks.flatten ++ rest).headD 0) ∧
            impl₁.maxRowidsInSegment = M := by
          by_cases hr : rest = []
          · subst hr
            rw [hnil rfl, List.append_nil]
            have hblocks : blocks ≠ [] := by
              rintro rfl
              exact hempty rfl
            exact ⟨h.started hblocks, h.max⟩
          · exact hsome hr
        obtain ⟨hstarted, hmax⟩ := hstarted
        rw [← List.append_assoc, headD_append hempty]
        obtain ⟨impl', hinsert, hnext, hmax'⟩ :=
          hstarted.insertRowId hempty h.whole (by rw [hmax]; exact hM) hrest x
        exact ⟨impl', hinsert, hnext, hmax'.trans hmax⟩
    obtain ⟨impl', hinsert, hstarted, hmax⟩ := hstep
    refine ⟨impl', ?_, fun hne => ?_, fun _ => ⟨hstarted, hmax⟩⟩
    · rw [List.foldlM_append, hfold]
      simp only [bind, Except.bind, List.foldlM_cons, List.foldlM_nil, hinsert]
      rfl
    · simp at hne

/-! ## All segments -/

/-- **A segment of the encoder**: its blocks are as the decoder expects them. -/
structure Segment (M : ℕ) (segment : List (List ℕ)) : Prop where
  nonempty : segment.flatten ≠ []
  blocks : ∀ b ∈ segment, b ≠ []
  counts : segment.map List.length = blockCounts segment.flatten.length
  le : segment.flatten.length ≤ M

theorem map_length_whole (h : ∀ b ∈ blocks, b.length = blockSize) :
    blocks.map List.length = List.replicate blocks.length blockSize := by
  rw [List.eq_replicate_iff]
  refine ⟨List.length_map _, ?_⟩
  intro n hn
  obtain ⟨b, hb, rfl⟩ := List.mem_map.1 hn
  exact h b hb

theorem whole_ne_nil (h : ∀ b ∈ blocks, b.length = blockSize) : ∀ b ∈ blocks, b ≠ [] := by
  rintro b hb rfl
  cases h [] hb

theorem Segment.whole (hwhole : ∀ b ∈ blocks, b.length = blockSize) (hne : blocks ≠ [])
    (hle : blocks.flatten.length ≤ M) : Segment M blocks := by
  refine ⟨flatten_ne_nil hwhole hne, whole_ne_nil hwhole, ?_, hle⟩
  unfold blockCounts
  rw [map_length_whole hwhole, length_flatten_whole hwhole, Nat.mul_div_cancel_left _ blockSize_pos, Nat.mul_mod_right]
  simp

theorem Segment.tail (hwhole : ∀ b ∈ blocks, b.length = blockSize) (hne : rest ≠ []) (hrest : rest.length < blockSize)
    (hle : (blocks ++ [rest]).flatten.length ≤ M) : Segment M (blocks ++ [rest]) := by
  have hpos : 0 < rest.length := List.length_pos_iff.2 hne
  refine ⟨?_, ?_, ?_, hle⟩
  · rw [flatten_concat]
    exact fun hnil => hne (List.append_eq_nil_iff.1 hnil).2
  · intro b hb
    rcases List.mem_append.1 hb with hb | hb
    · exact whole_ne_nil hwhole b hb
    · rw [List.mem_singleton.1 hb]
      exact hne
  · unfold blockCounts
    dsimp only
    rw [flatten_concat, List.length_append, length_flatten_whole hwhole, Nat.mul_add_div blockSize_pos,
      Nat.div_eq_of_lt hrest, Nat.mul_add_mod, Nat.mod_eq_of_lt hrest, List.map_append, map_length_whole hwhole,
      if_pos (by omega)]
    rfl

theorem Full.segment {segment : List (List ℕ)} (h : Full M segment) (hM : 0 < M) : Segment M segment := by
  refine Segment.whole h.whole ?_ h.length.le
  rintro rfl
  have hlength := h.length
  simp only [List.flatten_nil, List.length_nil] at hlength
  omega

/-- **What the encoder has at the end**: segments that make up the list, all but the last
of them full. -/
structure Encoded (M : ℕ) (impl : PostingListCodecImpl) (ids : List ℕ) (segments : List (List (List ℕ))) : Prop where
  data : impl.compressedData = payloads segments
  descriptors : impl.segmentDescriptors = descriptorsFrom 0 segments
  ids : rowIdsOf segments = ids
  segment : ∀ s ∈ segments, Segment M s
  full : ∀ s ∈ segments.dropLast, s.flatten.length = M

/-- **The last block is encoded.** -/
theorem Progress.finish (h : Progress M impl segments blocks) (hM : blockSize ∣ M) (hrest : rest.length < blockSize) :
    ∃ impl' impl'' all, rest.foldlM PostingListCodecImpl.insertRowId impl = .ok impl' ∧
      (if impl'.currentSegment ≠ [] then impl'.encodeBlock impl'.currentSegment else pure impl') = .ok impl'' ∧
      Encoded M impl'' (rowIdsOf segments ++ (blocks.flatten ++ rest)) all := by
  have hpos : 0 < M := by
    have hroom := h.room
    omega
  have hsegments : ∀ s ∈ segments, Segment M s := fun s hs => (h.full s hs).segment hpos
  have hlengths : ∀ s ∈ segments, s.flatten.length = M := fun s hs => (h.full s hs).length
  -- the segments with one more after them
  have hmore : ∀ {last : List (List ℕ)}, Segment M last → (∀ s ∈ segments ++ [last], Segment M s) ∧
      ∀ s ∈ (segments ++ [last]).dropLast, s.flatten.length = M := by
    intro last hlast
    rw [List.dropLast_concat]
    refine ⟨fun s hs => ?_, hlengths⟩
    rcases List.mem_append.1 hs with hs | hs
    · exact hsegments s hs
    · rw [List.mem_singleton.1 hs]
      exact hlast
  obtain ⟨impl', hfold, hnil, hsome⟩ := h.insertRest hM hrest
  by_cases hr : rest = []
  · subst hr
    obtain rfl := hnil rfl
    rw [List.append_nil]
    by_cases hb : blocks = []
    · subst hb
      have hbetween := h.between rfl
      refine ⟨impl', impl', segments, hfold, if_neg (not_not.2 hbetween.current), hbetween.data, hbetween.descriptors,
        ?_, hsegments, fun s hs => hlengths s (List.dropLast_subset _ hs)⟩
      rw [List.flatten_nil, List.append_nil]
    · have hstarted := h.started hb
      obtain ⟨hdata, hdescriptors⟩ := hstarted.close rfl
      obtain ⟨hall, hfull⟩ := hmore (Segment.whole h.whole hb h.room.le)
      exact ⟨impl', impl', segments ++ [blocks], hfold, if_neg (not_not.2 hstarted.current), hdata, hdescriptors,
        rowIdsOf_concat segments blocks, hall, hfull⟩
  · obtain ⟨hstarted, hmax⟩ := hsome hr
    have hcurrent : impl'.currentSegment ≠ [] := by
      intro hempty
      have hlength := congrArg List.length (hstarted.current.symm.trans hempty)
      rw [length_differencesFrom, List.length_nil, List.length_eq_zero_iff] at hlength
      exact hr hlength
    obtain ⟨impl'', hencode, rfl⟩ := Started.encodeBlock _ hstarted.data hstarted.descriptors hstarted.prev hr
    rw [← hstarted.current] at hencode
    have hle : (blocks ++ [rest]).flatten.length ≤ M := by
      obtain ⟨m, hm⟩ := hM
      have hroom := h.room
      rw [flatten_concat, List.length_append]
      rw [hm, length_flatten_whole h.whole] at *
      unfold blockSize at *
      omega
    obtain ⟨hall, hfull⟩ := hmore (Segment.tail h.whole hr hrest hle)
    refine ⟨impl', _, segments ++ [blocks ++ [rest]], hfold, (if_pos hcurrent).trans hencode, ?_, ?_, ?_, hall, hfull⟩
    · rw [payloads_concat]
      unfold payload
      rw [flatten_concat]
    · rw [descriptorsFrom_concat, Nat.zero_add, flatten_concat]
    · rw [rowIdsOf_concat, flatten_concat]

/-! ## What is written -/

/-- A segment as it is written. -/
def segmentBytes (segment : List (List ℕ)) : List UInt8 :=
  ({ payloadBytes := (payload segment).length
     cardinality := segment.flatten.length % 2 ^ 32
     firstRowId := segment.flatten.headD 0 } : PostingListHeader).write ++ payload segment

/-- Where chunks start that lie one after the other. -/
def startsFrom (offset : ℕ) : List (List UInt8) → List ℕ
  | [] => []
  | chunk :: chunks => offset :: startsFrom (offset + chunk.length) chunks

/-- **The segments are written one after the other**, with their offsets and ranges. -/
theorem serializeSegments_eq (impl : PostingListCodecImpl) (segments : List (List (List ℕ))) (before : List UInt8) (out : List UInt8)
    (info : TokenPostingsInfo) (hdata : impl.compressedData = before ++ payloads segments) :
    (descriptorsFrom before.length segments).foldl impl.serializeSegment (out, info) =
      (out ++ (segments.map segmentBytes).flatten,
        { offsets := info.offsets ++ startsFrom out.length (segments.map segmentBytes)
          ranges := info.ranges ++ segments.map fun s => (s.flatten.headD 0, s.flatten.getLastD 0) }) := by
  induction segments generalizing before out info with
  | nil => simp [descriptorsFrom, startsFrom]
  | cons segment segments ih =>
    have hpayloads : payloads (segment :: segments) = payload segment ++ payloads segments := rfl
    have hslice : (impl.compressedData.drop before.length).take (payload segment).length = payload segment := by
      rw [hdata, hpayloads, List.drop_left, List.take_left]
    have hstep : impl.serializeSegment (out, info) (descriptorOf before.length (segment.flatten.headD 0) segment) =
        (out ++ segmentBytes segment, {
          offsets := info.offsets ++ [out.length]
          ranges := info.ranges ++ [(segment.flatten.headD 0, segment.flatten.getLastD 0)] }) := by
      unfold serializeSegment segmentBytes descriptorOf
      dsimp only
      rw [← payload, hslice]
    have hrest := ih (before ++ payload segment) (out ++ segmentBytes segment) {
      offsets := info.offsets ++ [out.length]
      ranges := info.ranges ++ [(segment.flatten.headD 0, segment.flatten.getLastD 0)] } (by
        rw [hdata, hpayloads, List.append_assoc])
    rw [List.length_append] at hrest
    rw [descriptorsFrom, List.foldl_cons, hstep, hrest]
    simp [startsFrom]

/-- **What the encoder writes of a list.** -/
theorem encodePostingList_eq (ids : List ℕ) {size : ℕ} (hM : 0 < roundUp size) (info : TokenPostingsInfo)
    (out : List UInt8) : ∃ segments, encodePostingList ids size info out =
      .ok (out ++ (segments.map segmentBytes).flatten,
        { offsets := info.offsets ++ startsFrom out.length (segments.map segmentBytes)
          ranges := info.ranges ++ segments.map fun s => (s.flatten.headD 0, s.flatten.getLastD 0) }) ∧
      rowIdsOf segments = ids ∧ (∀ s ∈ segments, Segment (roundUp size) s) ∧
        ∀ s ∈ segments.dropLast, s.flatten.length = roundUp size := by
  have hdvd : blockSize ∣ roundUp size := Nat.dvd_mul_left _ _
  have hstart : Progress (roundUp size) (make size) [] [] := by
    refine ⟨rfl, fun s hs => (nomatch hs), fun b hb => (nomatch hb), hM, fun _ => ⟨rfl, rfl, rfl, rfl⟩,
      fun hne => absurd rfl hne⟩
  obtain ⟨impl₁, segments₁, blocks₁, rest, hinsert, h₁, hrest, hids⟩ := hstart.insertAll hdvd ids rfl
  obtain ⟨impl₂, impl₃, segments, hfold, hencode, hencoded⟩ := h₁.finish hdvd hrest
  refine ⟨segments, ?_, ?_, hencoded.segment, hencoded.full⟩
  · have hserialize := serializeSegments_eq impl₃ segments [] out info hencoded.data
    rw [List.length_nil] at hserialize
    have hlast : impl₂.encode out info = .ok (impl₃.serializeTo out info) := by
      unfold PostingListCodecImpl.encode
      by_cases hcurrent : impl₂.currentSegment ≠ []
      · rw [if_pos hcurrent] at hencode ⊢
        rw [hencode]
        rfl
      · rw [if_neg hcurrent] at hencode ⊢
        rw [hencode]
        rfl
    unfold encodePostingList
    rw [hinsert, hfold]
    change impl₂.encode out info = _
    rw [hlast]
    unfold serializeTo
    rw [hencoded.descriptors, hserialize]
  · rw [hencoded.ids, hids]
    rfl

/-! ## Reading a segment -/

theorem PostingListHeader.reads {header : PostingListHeader} (hbytes : header.payloadBytes < 2 ^ 64)
    (hcardinality : header.cardinality < 2 ^ 32) (hfirst : header.firstRowId < 2 ^ 32) :
    Reads PostingListHeader.read header.write header := by
  unfold PostingListHeader.read PostingListHeader.write
  refine (Codec.varUInt.reads PostingListHeader.bitpacking (by decide)).bind ?_
  refine (Reads.check rfl).nil_bind ?_
  refine (Codec.varUInt.reads _ hbytes).bind ?_
  refine (Codec.varUInt.reads _ (hcardinality.trans (by decide))).bind ?_
  refine (Codec.varUInt.reads _ (hfirst.trans (by decide))).bind_nil ?_
  rw [Nat.mod_eq_of_lt hcardinality, Nat.mod_eq_of_lt hfirst]
  exact Reads.pure header

theorem decode_reads_of {header : PostingListHeader} {bytes : List UInt8} (left : List UInt8) {postings : List ℕ}
    (hbytes : header.payloadBytes = bytes.length) (hfit : bytes.length < 2 ^ 64) (hcardinality : header.cardinality < 2 ^ 32)
    (hfirst : header.firstRowId < 2 ^ 32)
    (hblocks : decodeBlocks (blockCounts header.cardinality) header.firstRowId [] bytes = .ok (postings, left)) :
    Reads PostingListCodecImpl.decode (header.write ++ bytes) postings := by
  unfold PostingListCodecImpl.decode
  refine (PostingListHeader.reads (by omega) hcardinality hfirst).bind ?_
  rw [hbytes]
  refine (Reads.bytes bytes).bind_nil ?_
  rw [hblocks]
  exact Reads.pure postings

theorem bitpackingCompressedBytes_le {n b : ℕ} (hb : b ≤ 32) : bitpackingCompressedBytes n b ≤ 4 * n + 12 := by
  have hmul : (n + 3) / 4 * b ≤ (n + 3) / 4 * 32 := Nat.mul_le_mul_left _ hb
  unfold bitpackingCompressedBytes
  split
  · omega
  · split
    · omega
    · dsimp only
      omega

theorem length_blocksPayload_le (prev : ℕ) (hblocks : ∀ b ∈ blocks, b ≠ []) :
    (blocksPayload prev blocks).length ≤ 17 * blocks.flatten.length := by
  induction blocks generalizing prev with
  | nil => exact Nat.zero_le _
  | cons block blocks ih =>
    have hpos : 0 < block.length := List.length_pos_iff.2 (hblocks block List.mem_cons_self)
    have hrest := ih (block.getLastD prev) fun b hb => hblocks b (List.mem_cons_of_mem block hb)
    have hbits := maxbitsLength_le (differencesFrom_lt prev block)
    have hsize := length_packingLength hbits (differencesFrom prev block)
    have hle := bitpackingCompressedBytes_le (n := block.length) hbits
    rw [length_differencesFrom] at hsize
    rw [blocksPayload, List.length_append, blockBytes, List.length_cons, length_differencesFrom, hsize,
      List.flatten_cons, List.length_append]
    omega

theorem length_le_of_sorted {ids : List ℕ} {n : ℕ} (hsorted : ids.Pairwise (· < ·)) (hlt : ∀ x ∈ ids, x < n) :
    ids.length ≤ n := by
  have hnodup : ids.Nodup := hsorted.imp fun hab => hab.ne
  have hsubset : ids ⊆ List.range n := fun x hx => List.mem_range.2 (hlt x hx)
  have hle := (hnodup.subperm hsubset).length_le
  rwa [List.length_range] at hle

theorem Segment.payload_reads {segment : List (List ℕ)} (h : Segment M segment)
    (hsorted : segment.flatten.Pairwise (· < ·)) (hlt : ∀ x ∈ segment.flatten, x < 2 ^ 32) :
    Reads (decodeBlocks (blockCounts segment.flatten.length) (segment.flatten.headD 0) []) (payload segment)
      segment.flatten := by
  have hfirst : segment.flatten.headD 0 < 2 ^ 32 := by
    cases hs : segment.flatten with
    | nil => exact absurd hs h.nonempty
    | cons x ids => exact hlt x (by rw [hs]; exact List.mem_cons_self)
  rw [← h.counts]
  exact decodeBlocks_reads hfirst h.blocks hlt hsorted (Or.inl rfl)

theorem Segment.reads {segment : List (List ℕ)} {postings : List ℕ} (h : Segment M segment)
    (hsorted : segment.flatten.Pairwise (· < ·)) (hlt : ∀ x ∈ segment.flatten, x < 2 ^ 32)
    (hpostings : (segment.flatten.length < 2 ^ 32 ∧ postings = segment.flatten) ∨
      (segment.flatten.length = 2 ^ 32 ∧ postings = [])) :
    Reads PostingListCodecImpl.decode (segmentBytes segment) postings := by
  have hfirst : segment.flatten.headD 0 < 2 ^ 32 := by
    cases hs : segment.flatten with
    | nil => exact absurd hs h.nonempty
    | cons x ids => exact hlt x (by rw [hs]; exact List.mem_cons_self)
  have hlength := length_le_of_sorted hsorted hlt
  have hpayload := length_blocksPayload_le (segment.flatten.headD 0) h.blocks
  have hbytes : (payload segment).length < 2 ^ 64 := by
    unfold payload
    omega
  have hmod : segment.flatten.length % 2 ^ 32 < 2 ^ 32 := Nat.mod_lt _ (by decide)
  have hread := h.payload_reads hsorted hlt []
  rw [List.append_nil] at hread
  unfold segmentBytes
  rcases hpostings with ⟨hfits, rfl⟩ | ⟨hfull, rfl⟩
  · refine decode_reads_of [] rfl hbytes hmod hfirst ?_
    rw [Nat.mod_eq_of_lt hfits]
    exact hread
  · -- the header counts no row id, so nothing is read of the payload
    refine decode_reads_of (payload segment) rfl hbytes hmod hfirst ?_
    have hnone : blockCounts 0 = [] := by decide
    rw [hfull, Nat.mod_self]
    dsimp only
    rw [hnone]
    rfl

theorem drop_startsFrom (before : List UInt8) {chunks : List (List UInt8)} {i : ℕ} (hi : i < chunks.length) :
    (before ++ chunks.flatten).drop ((startsFrom before.length chunks).getD i 0) =
      chunks.getD i [] ++ (chunks.drop (i + 1)).flatten := by
  induction chunks generalizing before i with
  | nil => cases hi
  | cons chunk chunks ih =>
    cases i with
    | zero =>
      rw [startsFrom, List.getD_cons_zero, List.drop_left, List.flatten_cons]
      rfl
    | succ i =>
      have hrest := ih (before ++ chunk) (i := i) (by simpa using hi)
      rw [List.length_append, List.append_assoc] at hrest
      rw [startsFrom, List.getD_cons_succ, List.flatten_cons, hrest]
      rfl

theorem roundUp_spec {size : ℕ} (hwrap : size + (blockSize - 1) < 2 ^ 64) :
    size ≤ roundUp size ∧ roundUp size < size + blockSize ∧ blockSize ∣ roundUp size := by
  refine ⟨?_, ?_, Nat.dvd_mul_left _ _⟩
  · unfold roundUp
    rw [addSize_of_lt hwrap]
    unfold blockSize
    omega
  · unfold roundUp
    rw [addSize_of_lt hwrap]
    unfold blockSize
    omega

theorem rowIdsOf_eq (segments : List (List (List ℕ))) : rowIdsOf segments = (segments.map List.flatten).flatten := rfl

/-- **The round trip of posting lists.** The list is cut into slices of the rounded block
size, the last one may be shorter. The recorded ranges are the first and the last row id of
each slice. Decoding from a recorded offset yields the slice and consumes the bytes that
were written for it. This is so unless one slice is all of the `2 ^ 32` row ids. -/
theorem encodePostingList_decode {rowids : List ℕ} {size : ℕ} (hsorted : rowids.Pairwise (· < ·))
    (hlt : ∀ x ∈ rowids, x < 2 ^ 32) (hsize : 1 ≤ size) (hwrap : size + (blockSize - 1) < 2 ^ 64)
    (hfit : ¬ (rowids.length = 2 ^ 32 ∧ 2 ^ 32 ≤ roundUp size)) (info : TokenPostingsInfo) (out : List UInt8) :
    ∃ (slices : List (List ℕ)) (chunks : List (List UInt8)), encodePostingList rowids size info out =
        .ok (out ++ chunks.flatten, {
          offsets := info.offsets ++ startsFrom out.length chunks
          ranges := info.ranges ++ slices.map fun s => (s.headD 0, s.getLastD 0) }) ∧
      slices.flatten = rowids ∧ (∀ s ∈ slices, s ≠ [] ∧ s.length ≤ roundUp size) ∧
      (∀ s ∈ slices.dropLast, s.length = roundUp size) ∧ chunks.length = slices.length ∧
      ∀ i < slices.length,
        PostingListCodecImpl.decode ((out ++ chunks.flatten).drop ((startsFrom out.length chunks).getD i 0)) =
          .ok (slices.getD i [], (out ++ chunks.flatten).drop
            ((startsFrom out.length chunks).getD i 0 + (chunks.getD i []).length)) := by
  have hM : 0 < roundUp size := by
    have := (roundUp_spec hwrap).1
    omega
  obtain ⟨segments, hencode, hids, hsegments, hfull⟩ := encodePostingList_eq rowids hM info out
  have hsublist : ∀ s ∈ segments, s.flatten.Sublist rowids := by
    intro s hs
    rw [← hids]
    exact List.sublist_flatten_of_mem (List.mem_map_of_mem hs)
  have hreads : ∀ s ∈ segments, Reads PostingListCodecImpl.decode (segmentBytes s) s.flatten := by
    intro s hs
    have hsub := hsublist s hs
    have hslt : ∀ x ∈ s.flatten, x < 2 ^ 32 := fun x hx => hlt x (hsub.subset hx)
    have hssorted := hsorted.sublist hsub
    refine (hsegments s hs).reads hssorted hslt (Or.inl ⟨?_, rfl⟩)
    have hle := length_le_of_sorted hssorted hslt
    have hrowids := length_le_of_sorted hsorted hlt
    have hslice := (hsegments s hs).le
    have hlength := hsub.length_le
    by_contra hge
    exact hfit ⟨by omega, by omega⟩
  refine ⟨segments.map List.flatten, segments.map segmentBytes, ?_, hids, ?_, ?_, ?_, ?_⟩
  · rw [hencode, List.map_map]
    rfl
  · intro s hs
    obtain ⟨segment, hmem, rfl⟩ := List.mem_map.1 hs
    exact ⟨(hsegments segment hmem).nonempty, (hsegments segment hmem).le⟩
  · intro s hs
    rw [← List.map_dropLast] at hs
    obtain ⟨segment, hmem, rfl⟩ := List.mem_map.1 hs
    exact hfull segment hmem
  · rw [List.length_map, List.length_map]
  · intro i hi
    rw [List.length_map] at hi
    have hchunks : i < (segments.map segmentBytes).length := by rw [List.length_map]; exact hi
    have hstart := drop_startsFrom out hchunks
    have hchunk : (segments.map segmentBytes).getD i [] = segmentBytes segments[i] := by
      simp [List.getD_eq_getElem?_getD, hi]
    have hslice : (segments.map List.flatten).getD i [] = segments[i].flatten := by
      simp [List.getD_eq_getElem?_getD, hi]
    have hread := hreads segments[i] (List.getElem_mem hi) ((segments.map segmentBytes).drop (i + 1)).flatten
    rw [← List.drop_drop, hstart, List.drop_left, hchunk, hslice]
    exact hread

/-- The first 300 row ids in slices of 128. -/
theorem encodePostingList_decode_three_slices : ∃ (slices : List (List ℕ)) (chunks : List (List UInt8)),
    encodePostingList (List.range 300) 100 {} [7] =
        .ok ([7] ++ chunks.flatten, {
          offsets := [] ++ startsFrom 1 chunks
          ranges := [] ++ slices.map fun s => (s.headD 0, s.getLastD 0) }) ∧
      slices.flatten = List.range 300 ∧ (∀ s ∈ slices, s ≠ [] ∧ s.length ≤ roundUp 100) ∧
      (∀ s ∈ slices.dropLast, s.length = roundUp 100) ∧ chunks.length = slices.length ∧
      ∀ i < slices.length,
        PostingListCodecImpl.decode (([7] ++ chunks.flatten).drop ((startsFrom 1 chunks).getD i 0)) =
          .ok (slices.getD i [], ([7] ++ chunks.flatten).drop
            ((startsFrom 1 chunks).getD i 0 + (chunks.getD i []).length)) :=
  encodePostingList_decode List.pairwise_lt_range (fun x hx => (List.mem_range.1 hx).trans (by decide)) (by decide)
    (by decide) (by rw [List.length_range]; decide) {} [7]

/-- **All row ids in one segment**: its cardinality is written as zero. -/
theorem cardinality_wraps {rowids : List ℕ} {size : ℕ} (hsorted : rowids.Pairwise (· < ·))
    (hlt : ∀ x ∈ rowids, x < 2 ^ 32) (hall : rowids.length = 2 ^ 32) (hM : 2 ^ 32 ≤ roundUp size) :
    ∃ out info, encodePostingList rowids size {} [] = .ok (out, info) ∧ info.offsets = [0] ∧
      Reads PostingListCodecImpl.decode out [] := by
  obtain ⟨segments, hencode, hids, hsegments, hfull⟩ := encodePostingList_eq rowids (lt_of_lt_of_le (by decide) hM) {} []
  -- a full segment before the last one would be all of the list
  have hone : ∃ s, segments = [s] := by
    rcases List.eq_nil_or_concat segments with rfl | ⟨before, last, rfl⟩
    · have hlength := congrArg List.length hids
      rw [hall] at hlength
      cases hlength
    · rw [List.concat_eq_append] at *
      cases before with
      | nil => exact ⟨last, rfl⟩
      | cons first before =>
        have hfirst := hfull first (by rw [List.dropLast_concat]; exact List.mem_cons_self)
        have hlast := (hsegments last (List.mem_append_right _ (List.mem_singleton_self last))).nonempty
        have hpos : 0 < last.flatten.length := List.length_pos_iff.2 hlast
        have hlength := congrArg List.length hids
        rw [rowIdsOf_concat, List.length_append, rowIdsOf_eq, List.map_cons, List.flatten_cons, List.length_append,
          hfirst, hall] at hlength
        omega
  obtain ⟨s, rfl⟩ := hone
  have hflatten : s.flatten = rowids := by
    rw [← hids, rowIdsOf_eq]
    simp
  have hread : Reads PostingListCodecImpl.decode (segmentBytes s) [] := (hsegments s (List.mem_singleton_self s)).reads
    (by rw [hflatten]; exact hsorted) (by rw [hflatten]; exact hlt) (Or.inr ⟨by rw [hflatten]; exact hall, rfl⟩)
  refine ⟨_, _, hencode, ?_, ?_⟩
  · rfl
  · rw [List.map_cons, List.map_nil, List.flatten_cons, List.flatten_nil, List.append_nil, List.nil_append]
    exact hread

/-- The list of all row ids and a block size of as many: one offset is recorded, and nothing
is read from it. -/
theorem all_row_ids : ∃ out info, encodePostingList (List.range (2 ^ 32)) (2 ^ 32) {} [] = .ok (out, info) ∧
    info.offsets = [0] ∧ Reads PostingListCodecImpl.decode out [] ∧ List.range (2 ^ 32) ≠ [] := by
  have hM : 2 ^ 32 ≤ roundUp (2 ^ 32) := (roundUp_spec (by decide)).1
  obtain ⟨out, info, hencode, hoffsets, hread⟩ := cardinality_wraps List.pairwise_lt_range
    (fun x hx => List.mem_range.1 hx) List.length_range hM
  refine ⟨out, info, hencode, hoffsets, hread, ?_⟩
  rw [← List.length_pos_iff, List.length_range]
  decide

end MergeTree
