import MergeTree.Lib.BitString
import MergeTree.Spec.BitpackingBlockCodec

/-!
# What was packed is unpacked

The bits that the packer has taken are four bit strings, one of each lane (`lane`). The
packer writes their words (`Packs`), and the unpacker, which reads word after word, holds
the bits between what it produced and what it read (`Unpacks`).

* `payload`: the bytes of some values, for whole blocks and for the tail.
* `unpackFixed_reads`, `unpackTail_reads`: what the unpackers make of a payload.
* `encode_decode`: the whole input.
-/

namespace MergeTree

namespace BitpackingBlockCodec

variable {b : ℕ}
variable {values out : List ℕ} {S : Fin 4 → BitString} {L : Lanes}

/-! ## The width -/

theorem or_lt_two_pow_iff {x y c : ℕ} : x ||| y < 2 ^ c ↔ x < 2 ^ c ∧ y < 2 ^ c := by
  constructor
  · intro h
    exact ⟨Nat.left_le_or.trans_lt h, Nat.right_le_or.trans_lt h⟩
  · rintro ⟨hx, hy⟩
    exact Nat.or_lt_two_pow hx hy

theorem foldl_or_lt_iff {f : ℕ → ℕ → ℕ} {g : ℕ → Prop} {c : ℕ} (hf : ∀ x k, f x k < 2 ^ c ↔ x < 2 ^ c ∧ g k)
    {l : List ℕ} : ∀ {x : ℕ}, l.foldl f x < 2 ^ c ↔ x < 2 ^ c ∧ ∀ k ∈ l, g k := by
  induction l with
  | nil => intro x; simp
  | cons k l ih =>
    intro x
    rw [List.foldl_cons, ih, hf]
    simp only [List.mem_cons, forall_eq_or_imp]
    tauto

theorem chunks_of_four {c : ℕ} :
    ((∀ k ∈ List.range (values.length / 4), ((values.getD (4 * k) 0 < 2 ^ c ∧ values.getD (4 * k + 1) 0 < 2 ^ c) ∧
        values.getD (4 * k + 2) 0 < 2 ^ c) ∧ values.getD (4 * k + 3) 0 < 2 ^ c) ∧
      ∀ k ∈ List.range' (values.length / 4 * 4) (values.length - values.length / 4 * 4), values.getD k 0 < 2 ^ c) ↔
    ∀ v ∈ values, v < 2 ^ c := by
  have hmem : ∀ i < values.length, values.getD i 0 ∈ values := fun i hi => by
    rw [List.getD_eq_getElem _ _ hi]
    exact List.getElem_mem hi
  constructor
  · rintro ⟨hchunks, htail⟩ v hv
    obtain ⟨i, hi, rfl⟩ := List.getElem_of_mem hv
    rw [← List.getD_eq_getElem _ 0 hi]
    by_cases hlast : values.length / 4 * 4 ≤ i
    · exact htail i (List.mem_range'_1.2 (by omega))
    · obtain ⟨⟨⟨h0, h1⟩, h2⟩, h3⟩ := hchunks (i / 4) (List.mem_range.2 (by omega))
      have hcases : i = 4 * (i / 4) ∨ i = 4 * (i / 4) + 1 ∨ i = 4 * (i / 4) + 2 ∨ i = 4 * (i / 4) + 3 := by omega
      rcases hcases with h | h | h | h <;> rw [h] <;> assumption
  · intro h
    refine ⟨fun k hk => ?_, fun k hk => h _ (hmem k ?_)⟩
    · have hk' := List.mem_range.1 hk
      exact ⟨⟨⟨h _ (hmem _ (by omega)), h _ (hmem _ (by omega))⟩, h _ (hmem _ (by omega))⟩, h _ (hmem _ (by omega))⟩
    · have hk' := List.mem_range'_1.1 hk
      omega

/-- **The width**: all values fit in so many bits exactly when it is at least `maxbitsLength`. -/
theorem maxbitsLength_le_iff (hvalues : ∀ v ∈ values, v < 2 ^ 32) {c : ℕ} :
    maxbitsLength values ≤ c ↔ ∀ v ∈ values, v < 2 ^ c := by
  have hor : ∀ d, (List.range' (values.length / 4 * 4) (values.length - values.length / 4 * 4)).foldl
      (fun x k => x ||| values.getD k 0) ((List.range (values.length / 4)).foldl (fun x k => x ||| values.getD (4 * k) 0 |||
        values.getD (4 * k + 1) 0 ||| values.getD (4 * k + 2) 0 ||| values.getD (4 * k + 3) 0) 0) < 2 ^ d ↔
      ∀ v ∈ values, v < 2 ^ d := by
    intro d
    rw [foldl_or_lt_iff (g := fun k => values.getD k 0 < 2 ^ d) fun x k => or_lt_two_pow_iff,
      foldl_or_lt_iff (g := fun k => ((values.getD (4 * k) 0 < 2 ^ d ∧ values.getD (4 * k + 1) 0 < 2 ^ d) ∧
        values.getD (4 * k + 2) 0 < 2 ^ d) ∧ values.getD (4 * k + 3) 0 < 2 ^ d)
        fun x k => by simp only [or_lt_two_pow_iff]; tauto, ← chunks_of_four]
    have hpos : 0 < 2 ^ d := by positivity
    tauto
  unfold maxbitsLength
  simp only
  rw [← hor c]
  have h32 := (hor 32).2 hvalues
  generalize (List.range' (values.length / 4 * 4) (values.length - values.length / 4 * 4)).foldl
      (fun x k => x ||| values.getD k 0) ((List.range (values.length / 4)).foldl (fun x k => x ||| values.getD (4 * k) 0 |||
        values.getD (4 * k + 1) 0 ||| values.getD (4 * k + 2) 0 ||| values.getD (4 * k + 3) 0) 0) = x at *
  by_cases h0 : x = 0
  · subst h0
    have hpos : 0 < 2 ^ c := by positivity
    simp [hpos]
  · have hlog := (Nat.log2_lt h0 (k := 32)).2 h32
    rw [if_neg h0, builtinClz, ← Nat.log2_lt h0]
    omega

theorem maskForBits_eq (b : ℕ) : maskForBits b = 2 ^ b - 1 := by
  unfold maskForBits
  by_cases h32 : b = 32
  · rw [if_pos h32, h32]
    norm_num
  · rw [if_neg h32]
    by_cases h0 : b = 0
    · rw [if_pos h0, h0]
      norm_num
    · rw [if_neg h0, Nat.one_shiftLeft]

theorem and_maskForBits (b v : ℕ) : v &&& maskForBits b = v % 2 ^ b := by
  rw [maskForBits_eq, Nat.and_two_pow_sub_one_eq_mod]

/-! ## Packing -/

/-- The bits of a lane. -/
def lane (b : ℕ) (groups : List (Fin 4 → ℕ)) (k : Fin 4) : BitString := BitString.pack b (groups.map fun group => group k)

theorem size_lane (b : ℕ) (groups : List (Fin 4 → ℕ)) (k : Fin 4) : (lane b groups k).size = b * groups.length := by
  rw [lane, BitString.size_pack, List.length_map]

theorem lane_append (b : ℕ) (groups : List (Fin 4 → ℕ)) (group : Fin 4 → ℕ) (k : Fin 4) :
    lane b (groups ++ [group]) k = (lane b groups k).push b (group k) := by
  rw [lane, lane, List.map_append, List.map_singleton, BitString.pack_append]

/-- Word `j` of each lane. -/
def chunk (S : Fin 4 → BitString) (j : ℕ) : List UInt8 :=
  copyWords ((List.finRange 4).map fun k => (S k).field (32 * j) 32)

/-- The first words of the lanes. -/
def chunks (S : Fin 4 → BitString) (n : ℕ) : List UInt8 := (List.range n).flatMap (chunk S)

theorem chunks_succ (S : Fin 4 → BitString) (n : ℕ) : chunks S (n + 1) = chunks S n ++ chunk S n := by
  simp [chunks, List.range_succ]

theorem chunks_append (groups : List (Fin 4 → ℕ)) (group : Fin 4 → ℕ) {n : ℕ} (h : 32 * n ≤ b * groups.length) :
    chunks (lane b (groups ++ [group])) n = chunks (lane b groups) n := by
  apply List.flatMap_congr
  intro j hj
  have hj' := List.mem_range.1 hj
  unfold chunk
  congr 1
  apply List.map_congr_left
  intro k _
  rw [lane_append, BitString.field_push_of_le (by rw [size_lane]; omega)]

/-- **The packer after some groups**: the full words are written, the accumulators hold the rest. -/
structure Packs (b : ℕ) (groups : List (Fin 4 → ℕ)) (s : Lanes × List UInt8) : Prop where
  bits : s.1.accBits = b * groups.length % 32
  acc : ∀ k, s.1.acc k = (lane b groups k).tail (32 * (b * groups.length / 32))
  out : s.2 = chunks (lane b groups) (b * groups.length / 32)

theorem packs_nil (b : ℕ) : Packs b [] ({}, []) := by
  refine ⟨by simp, fun k => ?_, by simp [chunks]⟩
  exact (BitString.tail_empty _).symm

theorem words_eq_chunk {j : ℕ} (h : ∀ k, L.acc k = (S k).tail (32 * j)) :
    copyWords L.words = chunk S j := by
  unfold chunk Lanes.words
  simp only [h]
  rfl

/-- **One group.** -/
theorem Packs.group {groups : List (Fin 4 → ℕ)} {s : Lanes × List UInt8} (h : Packs b groups s) (hb : b < 32)
    (group : Fin 4 → ℕ) : Packs b (groups ++ [group]) (packGroup b s group) := by
  have hlength : b * (groups ++ [group]).length = b * groups.length + b := by
    rw [List.length_append, List.length_singleton, Nat.mul_succ]
  have hbits := h.bits
  have hsize := size_lane b groups
  have hsplit := Nat.div_add_mod (b * groups.length) 32
  have hacc : ∀ k, (s.1.append b group).acc k =
      (lane b (groups ++ [group]) k).tail (32 * (b * groups.length / 32)) := by
    intro k
    have hlow : s.1.acc k < 2 ^ s.1.accBits := by
      rw [h.acc k]
      exact BitString.tail_lt (by rw [hsize]; omega)
    have hpush : (lane b (groups ++ [group]) k).tail (32 * (b * groups.length / 32)) =
        s.1.acc k + 2 ^ s.1.accBits * (group k % 2 ^ b) := by
      rw [lane_append, BitString.tail_push (by rw [hsize]; omega), h.acc k, hsize]
      congr 3
      omega
    have hlt : (lane b (groups ++ [group]) k).tail (32 * (b * groups.length / 32)) < 2 ^ 64 :=
      BitString.tail_lt (by rw [size_lane, hlength]; omega)
    show s.1.acc k ||| ((group k &&& maskForBits b) <<< s.1.accBits) % 2 ^ 64 = _
    rw [and_maskForBits, BitString.or_shiftLeft_mod hlow (by omega), ← hpush, Nat.mod_eq_of_lt hlt]
  have hout : s.2 = chunks (lane b (groups ++ [group])) (b * groups.length / 32) := by
    rw [h.out, chunks_append groups group (by omega)]
  have haccBits : (s.1.append b group).accBits = b * groups.length % 32 + b := by
    show s.1.accBits + b = _
    rw [hbits]
  unfold packGroup
  simp only [haccBits]
  by_cases hfull : 32 ≤ b * groups.length % 32 + b
  · have hwords : (b * groups.length + b) / 32 = b * groups.length / 32 + 1 := by omega
    rw [if_pos hfull]
    refine ⟨?_, fun k => ?_, ?_⟩
    · show (s.1.append b group).accBits - 32 = _
      rw [haccBits, hlength]
      omega
    · show (s.1.append b group).acc k >>> 32 = _
      rw [hacc, Nat.shiftRight_eq_div_pow, BitString.tail_tail, hlength, hwords, Nat.mul_succ]
    · show s.2 ++ copyWords (s.1.append b group).words = _
      rw [hout, words_eq_chunk hacc, hlength, hwords, chunks_succ]
  · have hwords : (b * groups.length + b) / 32 = b * groups.length / 32 := by omega
    rw [if_neg hfull]
    refine ⟨?_, fun k => ?_, ?_⟩
    · show (s.1.append b group).accBits = _
      rw [haccBits, hlength]
      omega
    · rw [hacc, hlength, hwords]
    · rw [hout, hlength, hwords]

theorem packs_foldl (hb : b < 32) (groups : List (Fin 4 → ℕ)) : Packs b groups (groups.foldl (packGroup b) ({}, [])) := by
  induction groups using List.reverseRecOn with
  | nil => exact packs_nil b
  | append_singleton groups group ih =>
    rw [List.foldl_append]
    exact ih.group hb group

/-- **The packed groups**: all words that are begun. -/
theorem packRest_foldl (hb : b < 32) (groups : List (Fin 4 → ℕ)) :
    packRest (groups.foldl (packGroup b) ({}, [])) = chunks (lane b groups) ((b * groups.length + 31) / 32) := by
  have h := packs_foldl hb groups
  have hbits := h.bits
  unfold packRest
  by_cases hrest : b * groups.length % 32 = 0
  · have hwords : (b * groups.length + 31) / 32 = b * groups.length / 32 := by omega
    rw [if_neg (by rw [hbits]; omega), h.out, hwords]
  · have hwords : (b * groups.length + 31) / 32 = b * groups.length / 32 + 1 := by omega
    rw [if_pos (by rw [hbits]; exact hrest), h.out, words_eq_chunk h.acc, hwords, chunks_succ]

/-- The groups of some values, the last one padded with zeros. -/
def groupsOf (values : List ℕ) : List (Fin 4 → ℕ) := (List.range ((values.length + 3) / 4)).map (inputGroup values)

theorem length_groupsOf (values : List ℕ) : (groupsOf values).length = (values.length + 3) / 4 := by
  rw [groupsOf, List.length_map, List.length_range]

/-- **The bytes of some values.** -/
def payload (b : ℕ) (values : List ℕ) : List UInt8 :=
  if b = 0 then []
  else if b = 32 then copyWords values
  else chunks (lane b (groupsOf values)) ((b * (groupsOf values).length + 31) / 32)

theorem length_writeLittleEndian (width n : ℕ) : (writeLittleEndian width n).length = width := by
  induction width generalizing n with
  | zero => rfl
  | succ width ih => rw [writeLittleEndian, List.length_cons, ih]

theorem length_copyWords (words : List ℕ) : (copyWords words).length = words.length * 4 := by
  rw [copyWords, List.length_flatMap]
  simp only [length_writeLittleEndian, List.map_const', List.sum_replicate, smul_eq_mul]

theorem length_chunks (S : Fin 4 → BitString) (n : ℕ) : (chunks S n).length = n * 16 := by
  induction n with
  | zero => rfl
  | succ n ih =>
    rw [chunks_succ, List.length_append, ih, chunk, length_copyWords, List.length_map, List.length_finRange]
    omega

/-- **The size of a payload.** -/
theorem length_payload (b : ℕ) (values : List ℕ) : (payload b values).length = bitpackingCompressedBytes values.length b := by
  unfold payload bitpackingCompressedBytes
  by_cases h0 : b = 0
  · rw [if_pos h0, if_pos h0]
    rfl
  · rw [if_neg h0, if_neg h0]
    by_cases h32 : b = 32
    · rw [if_pos h32, if_pos h32, length_copyWords]
    · rw [if_neg h32, if_neg h32, length_chunks, length_groupsOf, Nat.mul_comm b]

theorem packFixed_eq (hb : b ≤ 32) (values : List ℕ) (groups : ℕ) (h : groups * 4 ≤ values.length) :
    packFixed b values groups = payload b (values.take (groups * 4)) := by
  have hlength : (values.take (groups * 4)).length = groups * 4 := by
    rw [List.length_take]
    omega
  have hgroups : groupsOf (values.take (groups * 4)) = (List.range groups).map (inputGroup values) := by
    have hcount : ((values.take (groups * 4)).length + 3) / 4 = groups := by omega
    unfold groupsOf
    rw [hcount]
    apply List.map_congr_left
    intro i hi
    have hi' := List.mem_range.1 hi
    funext k
    unfold inputGroup
    rw [List.getD_eq_getElem?_getD, List.getD_eq_getElem?_getD, List.getElem?_take_of_lt (by omega)]
  unfold packFixed payload
  by_cases h0 : b = 0
  · rw [if_pos h0, if_pos h0]
  · rw [if_neg h0, if_neg h0]
    by_cases hg : groups = 0
    · subst hg
      by_cases h32 : b = 32 <;> simp [h32, copyWords, groupsOf, chunks]
    · rw [if_neg hg]
      by_cases h32 : b = 32
      · rw [if_pos h32, if_pos h32]
      · rw [if_neg h32, if_neg h32, hgroups, ← packRest_foldl (by omega), List.foldl_map]

theorem packTail_eq (hb : b ≤ 32) (values : List ℕ) : packTail b values values.length = payload b values := by
  unfold packTail payload
  by_cases ht : values.length = 0
  · have hnil := List.eq_nil_of_length_eq_zero ht
    subst hnil
    by_cases h32 : b = 32 <;> simp [h32, copyWords, groupsOf, chunks]
  · rw [if_neg ht]
    by_cases h0 : b = 0
    · rw [if_pos h0, if_pos h0]
    · rw [if_neg h0, if_neg h0]
      by_cases h32 : b = 32
      · rw [if_pos h32, if_pos h32, List.take_length]
      · rw [if_neg h32, if_neg h32, ← packRest_foldl (by omega), groupsOf, List.foldl_map]
        by_cases hrem : values.length % 4 = 0
        · have hcount : (values.length + 3) / 4 = values.length / 4 := by omega
          dsimp only
          rw [if_neg (by omega), hcount]
        · have hcount : (values.length + 3) / 4 = values.length / 4 + 1 := by omega
          have hlast : (fun k : Fin 4 => if k.val < values.length % 4 then inputGroup values (values.length / 4) k else 0) =
              inputGroup values (values.length / 4) := by
            funext k
            by_cases hk : k.val < values.length % 4
            · rw [if_pos hk]
            · rw [if_neg hk, inputGroup, List.getD_eq_default _ _ (by omega)]
          dsimp only
          rw [if_pos hrem, hcount, List.range_succ, List.foldl_append, List.foldl_cons, List.foldl_nil, hlast]

/-! ## Unpacking -/

theorem readWords_reads (words : List ℕ) (h : ∀ w ∈ words, w < 2 ^ 32) : Reads (readWords words.length) (copyWords words) words := by
  have heach : Reads (Reader.each (fun _ => readLittleEndian 4) (List.range words.length))
      (words.flatMap (writeLittleEndian 4)) (words.map id) :=
    Reads.each (by simp) fun _ _ w hw => Reads.littleEndian (h w hw)
  rw [List.map_id] at heach
  exact heach

theorem chunk_reads (S : Fin 4 → BitString) (j : ℕ) :
    Reads (readWords 4) (chunk S j) ((List.finRange 4).map fun k => (S k).field (32 * j) 32) := by
  have hread := readWords_reads ((List.finRange 4).map fun k => (S k).field (32 * j) 32) fun w hw => by
    obtain ⟨k, -, rfl⟩ := List.mem_map.1 hw
    exact BitString.field_lt _ _ _
  rw [List.length_map, List.length_finRange] at hread
  exact hread

/-- How many words are read when so many groups were produced. -/
def wordsRead (b g : ℕ) : ℕ := (b * g + 31) / 32

/-- **The lanes after some groups**: they hold the bits from the next group on to the last
word that was read. -/
structure Unpacks (b : ℕ) (S : Fin 4 → BitString) (g c : ℕ) (L : Lanes) : Prop where
  bits : L.accBits = 32 * c - b * g
  acc : ∀ k, L.acc k = (S k).field (b * g) (32 * c - b * g)

theorem Unpacks.refill {g c : ℕ} (h : Unpacks b S g c L) (hle : b * g ≤ 32 * c) (hlt : 32 * c < b * g + 32) :
    Unpacks b S g (c + 1) (L.refill ((List.finRange 4).map fun k => (S k).field (32 * c) 32)) := by
  refine ⟨?_, fun k => ?_⟩
  · show L.accBits + 32 = _
    rw [h.bits]
    omega
  · have hget : ((List.finRange 4).map fun k => (S k).field (32 * c) 32).getD k 0 = (S k).field (32 * c) 32 := by
      rw [List.getD_eq_getElem _ _ (by simp), List.getElem_map]
      simp
    have hlow : (S k).field (b * g) (32 * c - b * g) < 2 ^ (32 * c - b * g) := BitString.field_lt _ _ _
    have hfield : (S k).field (b * g) (32 * (c + 1) - b * g) =
        (S k).field (b * g) (32 * c - b * g) + 2 ^ (32 * c - b * g) * (S k).field (32 * c) 32 := by
      have hwidth : 32 * (c + 1) - b * g = 32 * c - b * g + 32 := by omega
      have hpos : b * g + (32 * c - b * g) = 32 * c := by omega
      rw [hwidth, BitString.field_add, hpos]
    have hsize : (S k).field (b * g) (32 * (c + 1) - b * g) < 2 ^ 64 :=
      (BitString.field_lt _ _ _).trans_le (Nat.pow_le_pow_right (by norm_num) (by omega))
    show L.acc k ||| (((List.finRange 4).map fun k => (S k).field (32 * c) 32).getD k 0 <<< L.accBits) % 2 ^ 64 = _
    rw [hget, h.acc k, h.bits, BitString.or_shiftLeft_mod hlow (by omega), ← hfield, Nat.mod_eq_of_lt hsize]

theorem Unpacks.group {g c : ℕ} (h : Unpacks b S g c L) (hb : b ≤ 32)
    (hle : b * (g + 1) ≤ 32 * c) (k : Fin 4) : L.group b k = (S k).field (b * g) b := by
  have hwidth : b ≤ 32 * c - b * g := by
    rw [Nat.mul_succ] at hle
    omega
  unfold Lanes.group
  rw [and_maskForBits, Nat.mod_mod_of_dvd _ (Nat.pow_dvd_pow 2 hb), h.acc k, BitString.field_mod hwidth]

theorem Unpacks.consume {g c : ℕ} (h : Unpacks b S g c L)
    (hle : b * (g + 1) ≤ 32 * c) : Unpacks b S (g + 1) c (L.consume b) := by
  rw [Nat.mul_succ] at hle
  refine ⟨?_, fun k => ?_⟩
  · show L.accBits - b = _
    rw [h.bits, Nat.mul_succ]
    omega
  · have hwidth : 32 * c - b * g = b + (32 * c - b * (g + 1)) := by
      rw [Nat.mul_succ]
      omega
    show L.acc k >>> b = _
    rw [h.acc k, Nat.shiftRight_eq_div_pow, hwidth, BitString.field_div, ← Nat.mul_succ]

/-! ### The output array -/

theorem writeGroup_zero (out : List ℕ) (base : ℕ) (group : Fin 4 → ℕ) : writeGroup out base 0 group = out := by
  simp [writeGroup]

theorem writeGroup_succ {n : ℕ} (hn : n < 4) (out : List ℕ) (base : ℕ) (group : Fin 4 → ℕ) :
    writeGroup out base (n + 1) group = (writeGroup out base n group).set (base + n) (group ⟨n, hn⟩) := by
  unfold writeGroup
  interval_cases n <;> simp [List.finRange_succ]

theorem writeGroup_take {base n : ℕ} {group : Fin 4 → ℕ} (hn : n ≤ 4) (hbase : base + n ≤ values.length)
    (hlength : values.length ≤ out.length) (hgroup : ∀ k : Fin 4, k.val < n → group k = values.getD (base + k) 0) :
    writeGroup (values.take base ++ out.drop base) base n group = values.take (base + n) ++ out.drop (base + n) := by
  induction n with
  | zero => rw [writeGroup_zero, Nat.add_zero]
  | succ n ih =>
    have hvalue : group ⟨n, hn⟩ = values.getD (base + n) 0 := hgroup ⟨n, hn⟩ (Nat.lt_succ_self n)
    rw [List.getD_eq_getElem _ _ (by omega)] at hvalue
    have htake : (values.take (base + n)).length = base + n := by
      rw [List.length_take]
      omega
    rw [writeGroup_succ hn, ih (by omega) (by omega) fun k hk => hgroup k (by omega),
      List.set_append_right _ _ (by omega), htake, Nat.sub_self, List.drop_eq_getElem_cons (by omega), List.set_cons_zero,
      hvalue, ← Nat.add_assoc, List.take_succ_eq_append_getElem (by omega), List.append_assoc, List.singleton_append]

theorem field_lane (hvalues : ∀ v ∈ values, v < 2 ^ b) {g : ℕ} (hg : g < (groupsOf values).length) (k : Fin 4) :
    (lane b (groupsOf values) k).field (b * g) b = values.getD (4 * g + k) 0 := by
  have hlt : values.getD (4 * g + k) 0 < 2 ^ b := by
    by_cases hi : 4 * g + k < values.length
    · rw [List.getD_eq_getElem _ _ hi]
      exact hvalues _ (List.getElem_mem hi)
    · rw [List.getD_eq_default _ _ (by omega)]
      positivity
  unfold lane
  rw [BitString.field_pack (by rw [List.length_map]; exact hg), List.getElem_map]
  unfold groupsOf inputGroup
  rw [List.getElem_map, List.getElem_range, Nat.mod_eq_of_lt hlt]

/-! ### The loops -/

/-- The bytes that are read for group `g`. -/
def groupBytes (b : ℕ) (S : Fin 4 → BitString) (g : ℕ) : List UInt8 :=
  if 32 * wordsRead b g < b * (g + 1) then chunk S (wordsRead b g) else []

theorem wordsRead_bounds (b g : ℕ) : b * g ≤ 32 * wordsRead b g ∧ 32 * wordsRead b g < b * g + 32 := by
  unfold wordsRead
  omega

theorem wordsRead_succ (hb : b ≤ 32) (g : ℕ) :
    wordsRead b (g + 1) = if 32 * wordsRead b g < b * (g + 1) then wordsRead b g + 1 else wordsRead b g := by
  unfold wordsRead
  rw [Nat.mul_succ]
  split <;> omega

theorem flatMap_groupBytes (hb : b ≤ 32) (S : Fin 4 → BitString) (n : ℕ) :
    (List.range n).flatMap (groupBytes b S) = chunks S (wordsRead b n) := by
  induction n with
  | zero => simp [wordsRead, chunks]
  | succ n ih =>
    rw [List.range_succ, List.flatMap_append, ih, wordsRead_succ hb]
    by_cases h : 32 * wordsRead b n < b * (n + 1)
    · rw [if_pos h, chunks_succ]
      simp [groupBytes, h]
    · rw [if_neg h]
      simp [groupBytes, h]

/-- **The lanes of a group**, refilled if they have to be. -/
theorem Unpacks.refilled {g : ℕ} (h : Unpacks b S g (wordsRead b g) L) (hb : b ≤ 32) :
    ∃ L', Unpacks b S g (wordsRead b (g + 1)) L' ∧ b * (g + 1) ≤ 32 * wordsRead b (g + 1) ∧
      (L.accBits < b → Reads (readWords 4) (groupBytes b S g) ((List.finRange 4).map fun k => (S k).field (32 * wordsRead b g) 32) ∧
        L' = L.refill ((List.finRange 4).map fun k => (S k).field (32 * wordsRead b g) 32)) ∧
      (¬ L.accBits < b → groupBytes b S g = [] ∧ L' = L) := by
  obtain ⟨hle, hlt⟩ := wordsRead_bounds b g
  have hsucc := wordsRead_succ hb g
  have hnext := (wordsRead_bounds b (g + 1)).1
  have hneed : L.accBits < b ↔ 32 * wordsRead b g < b * (g + 1) := by
    rw [h.bits, Nat.mul_succ]
    omega
  by_cases hrefill : 32 * wordsRead b g < b * (g + 1)
  · rw [if_pos hrefill] at hsucc
    refine ⟨_, hsucc ▸ h.refill hle hlt, hnext, fun _ => ⟨?_, rfl⟩, fun hn => absurd (hneed.2 hrefill) hn⟩
    rw [groupBytes, if_pos hrefill]
    exact chunk_reads S _
  · rw [if_neg hrefill] at hsucc
    refine ⟨L, hsucc ▸ h, hnext, fun hn => absurd (hneed.1 hn) hrefill, fun _ => ⟨?_, rfl⟩⟩
    rw [groupBytes, if_neg hrefill]

theorem unpacks_zero (b : ℕ) (S : Fin 4 → BitString) : Unpacks b S 0 (wordsRead b 0) {} := by
  have hzero : wordsRead b 0 = 0 := by simp [wordsRead]
  refine ⟨by simp [hzero], fun k => ?_⟩
  simp [hzero, BitString.field, Nat.mod_one]

theorem unpackFixedLoop_reads (hb : b ≤ 32) {groups : ℕ} (hvalues : ∀ v ∈ values, v < 2 ^ b)
    (hgroups : values.length = 4 * groups) (hlength : values.length ≤ out.length) {m : ℕ} :
    ∀ {g fuel : ℕ} {L : Lanes}, g + m = groups → 2 * m + 1 ≤ fuel →
      Unpacks b (lane b (groupsOf values)) g (wordsRead b g) L →
      ∃ s, Reads (unpackFixedLoop b groups fuel ⟨L, g, values.take (4 * g) ++ out.drop (4 * g)⟩)
          ((List.range' g m).flatMap (groupBytes b (lane b (groupsOf values)))) s ∧
        s.out = values ++ out.drop values.length := by
  have hcount : (groupsOf values).length = groups := by
    rw [length_groupsOf, hgroups]
    omega
  induction m with
  | zero =>
    intro g fuel L hg hfuel _
    obtain ⟨k, rfl⟩ : ∃ k, fuel = k + 1 := ⟨fuel - 1, by omega⟩
    have hg' : 4 * g = values.length := by omega
    refine ⟨⟨L, g, values.take (4 * g) ++ out.drop (4 * g)⟩, ?_, ?_⟩
    · unfold unpackFixedLoop
      rw [if_pos (show groups ≤ g by omega)]
      exact Reads.pure _
    · show values.take (4 * g) ++ out.drop (4 * g) = _
      rw [hg', List.take_length]
  | succ m ih =>
    intro g fuel L hg hfuel hL
    obtain ⟨L', hL', hread, hneed, hskip⟩ := hL.refilled hb
    have hout : writeGroup (values.take (4 * g) ++ out.drop (4 * g)) (4 * g) 4 (L'.group b) =
        values.take (4 * (g + 1)) ++ out.drop (4 * (g + 1)) := by
      rw [Nat.mul_succ]
      apply writeGroup_take le_rfl (by omega) hlength
      intro k _
      rw [hL'.group hb hread, field_lane hvalues (by omega)]
    -- one time around for the group, from the refilled lanes
    have hgroup : ∀ fuel, 2 * m + 1 ≤ fuel → ∃ s,
        Reads (unpackFixedLoop b groups (fuel + 1) ⟨L', g, values.take (4 * g) ++ out.drop (4 * g)⟩)
          ((List.range' (g + 1) m).flatMap (groupBytes b (lane b (groupsOf values)))) s ∧
        s.out = values ++ out.drop values.length := by
      intro fuel hfuel
      obtain ⟨s, hs, hsout⟩ := ih (g := g + 1) (by omega) hfuel (hL'.consume hread)
      have henough : ¬ L'.accBits < b := by
        rw [Nat.mul_succ] at hread
        rw [hL'.bits]
        omega
      refine ⟨s, ?_, hsout⟩
      unfold unpackFixedLoop
      rw [if_neg (show ¬ groups ≤ g by omega), if_neg henough, hout]
      exact hs
    rw [List.range'_succ, List.flatMap_cons]
    by_cases hlow : L.accBits < b
    · obtain ⟨hbytes, rfl⟩ := hneed hlow
      obtain ⟨k, rfl⟩ : ∃ k, fuel = k + 2 := ⟨fuel - 2, by omega⟩
      obtain ⟨s, hs, hsout⟩ := hgroup k (by omega)
      refine ⟨s, ?_, hsout⟩
      unfold unpackFixedLoop
      rw [if_neg (show ¬ groups ≤ g by omega), if_pos hlow]
      exact hbytes.bind hs
    · obtain ⟨hbytes, rfl⟩ := hskip hlow
      obtain ⟨k, rfl⟩ : ∃ k, fuel = k + 1 := ⟨fuel - 1, by omega⟩
      obtain ⟨s, hs, hsout⟩ := hgroup k (by omega)
      rw [hbytes, List.nil_append]
      exact ⟨s, hs, hsout⟩

theorem lt_of_width (hvalues : ∀ v ∈ values, v < 2 ^ b) (hb : b ≤ 32) : ∀ v ∈ values, v < 2 ^ 32 :=
  fun v hv => (hvalues v hv).trans_le (Nat.pow_le_pow_right (by norm_num) hb)

theorem zeros_eq (hvalues : ∀ v ∈ values, v < 2 ^ 0) (hlength : values.length ≤ out.length)
    (hzero : ∀ x ∈ out.take values.length, x = 0) : out = values ++ out.drop values.length := by
  have htake : out.take values.length = values := by
    apply List.ext_getElem (by rw [List.length_take]; omega)
    intro i h₁ h₂
    have hv := hvalues _ (List.getElem_mem h₂)
    rw [hzero _ (List.getElem_mem h₁)]
    omega
  conv_lhs => rw [← List.take_append_drop values.length out, htake]

/-- **`unpackFixed` gives back whole groups.** -/
theorem unpackFixed_reads (hb : b ≤ 32) (values out : List ℕ) (groups : ℕ) (hvalues : ∀ v ∈ values, v < 2 ^ b)
    (hgroups : values.length = 4 * groups) (hlength : values.length ≤ out.length)
    (hzero : b = 0 → ∀ x ∈ out.take values.length, x = 0) :
    Reads (unpackFixed b groups out) (payload b values) (values ++ out.drop values.length) := by
  unfold unpackFixed payload
  by_cases hg : groups = 0
  · have hnil : values = [] := List.eq_nil_of_length_eq_zero (by omega)
    subst hnil
    rw [if_pos hg]
    by_cases h0 : b = 0
    · rw [if_pos h0]
      exact Reads.pure _
    · rw [if_neg h0]
      by_cases h32 : b = 32
      · rw [if_pos h32]
        exact Reads.pure _
      · rw [if_neg h32]
        have hnone : chunks (lane b (groupsOf [])) ((b * (groupsOf []).length + 31) / 32) = [] := by
          simp [groupsOf, chunks]
        rw [hnone]
        exact Reads.pure _
  · rw [if_neg hg]
    by_cases h0 : b = 0
    · rw [if_pos h0, if_pos h0]
      subst h0
      rw [← zeros_eq hvalues hlength (hzero rfl)]
      exact Reads.pure _
    · rw [if_neg h0, if_neg h0]
      by_cases h32 : b = 32
      · rw [if_pos h32, if_pos h32, Nat.mul_comm, ← hgroups]
        exact (readWords_reads values (lt_of_width hvalues hb)).bind_pure (f := fun words => copyOut words out)
      · rw [if_neg h32, if_neg h32]
        have hcount : (groupsOf values).length = groups := by
          rw [length_groupsOf, hgroups]
          omega
        obtain ⟨s, hs, hsout⟩ := unpackFixedLoop_reads hb hvalues hgroups hlength (m := groups) (g := 0)
          (Nat.zero_add groups) le_rfl (unpacks_zero b _)
        rw [← List.range_eq_range', flatMap_groupBytes hb] at hs
        have hdone := hs.bind_pure (f := fun s => s.out)
        rw [hsout] at hdone
        rw [hcount]
        exact hdone

/-- The lanes after some groups. -/
def lanesAt (b : ℕ) (S : Fin 4 → BitString) (g : ℕ) : Lanes where
  acc k := (S k).field (b * g) (32 * wordsRead b g - b * g)
  accBits := 32 * wordsRead b g - b * g

theorem unpacks_lanesAt (b : ℕ) (S : Fin 4 → BitString) (g : ℕ) : Unpacks b S g (wordsRead b g) (lanesAt b S g) :=
  ⟨rfl, fun _ => rfl⟩

theorem Unpacks.eq {g : ℕ} (h : Unpacks b S g (wordsRead b g) L) : L = lanesAt b S g := by
  obtain ⟨acc, accBits⟩ := L
  have hacc : acc = (lanesAt b S g).acc := funext h.acc
  have hbits : accBits = (lanesAt b S g).accBits := h.bits
  rw [hacc, hbits]

theorem unpackTailGroup_reads (hb : b ≤ 32) (hvalues : ∀ v ∈ values, v < 2 ^ b)
    (hlength : values.length ≤ out.length) {g : ℕ} (hg : g < (values.length + 3) / 4) :
    Reads (unpackTailGroup b (values.length / 4) (values.length % 4) (lanesAt b (lane b (groupsOf values)) g,
        values.take (min (4 * g) values.length) ++ out.drop (min (4 * g) values.length)) g)
      (groupBytes b (lane b (groupsOf values)) g) (lanesAt b (lane b (groupsOf values)) (g + 1),
        values.take (min (4 * (g + 1)) values.length) ++ out.drop (min (4 * (g + 1)) values.length)) := by
  obtain ⟨L', hL', hread, hneed, hskip⟩ := (unpacks_lanesAt b (lane b (groupsOf values)) g).refilled hb
  have hgroup : ∀ k : Fin 4, L'.group b k = values.getD (4 * g + k) 0 := fun k => by
    rw [hL'.group hb hread, field_lane hvalues (by rw [length_groupsOf]; exact hg)]
  have hstart : min (4 * g) values.length = 4 * g := by omega
  have hout : (if g < values.length / 4 then
        writeGroup (values.take (4 * g) ++ out.drop (4 * g)) (4 * g) 4 (L'.group b)
      else if values.length % 4 ≠ 0 then
        writeGroup (values.take (4 * g) ++ out.drop (4 * g)) (4 * g) (values.length % 4) (L'.group b)
      else values.take (4 * g) ++ out.drop (4 * g)) =
      values.take (min (4 * (g + 1)) values.length) ++ out.drop (min (4 * (g + 1)) values.length) := by
    by_cases hfull : g < values.length / 4
    · have hend : min (4 * (g + 1)) values.length = 4 * g + 4 := by omega
      rw [if_pos hfull, hend, writeGroup_take le_rfl (by omega) hlength fun k _ => hgroup k]
    · have hend : min (4 * (g + 1)) values.length = 4 * g + values.length % 4 := by omega
      rw [if_neg hfull, if_pos (by omega), hend, writeGroup_take (by omega) (by omega) hlength fun k _ => hgroup k]
  have hlanes : lanesAt b (lane b (groupsOf values)) (g + 1) = L'.consume b := (hL'.consume hread).eq.symm
  rw [hstart, ← hout, hlanes]
  unfold unpackTailGroup
  by_cases hlow : (lanesAt b (lane b (groupsOf values)) g).accBits < b
  · obtain ⟨hbytes, rfl⟩ := hneed hlow
    simp only [if_pos hlow]
    exact hbytes.bind_nil ((Reads.pure _).nil_bind (Reads.pure _))
  · obtain ⟨hbytes, rfl⟩ := hskip hlow
    simp only [if_neg hlow]
    rw [hbytes]
    exact Reads.pure _

/-- **`unpackTail` gives back any number of values.** -/
theorem unpackTail_reads (hb : b ≤ 32) (values out : List ℕ) (hvalues : ∀ v ∈ values, v < 2 ^ b)
    (hlength : values.length ≤ out.length) (hzero : b = 0 → ∀ x ∈ out.take values.length, x = 0) :
    Reads (unpackTail b values.length out) (payload b values) (values ++ out.drop values.length) := by
  unfold unpackTail payload
  by_cases ht : values.length = 0
  · have hnil : values = [] := List.eq_nil_of_length_eq_zero ht
    subst hnil
    have hnone : chunks (lane b (groupsOf [])) ((b * (groupsOf []).length + 31) / 32) = [] := by
      simp [groupsOf, chunks]
    rw [if_pos ht, hnone]
    by_cases h0 : b = 0 <;> by_cases h32 : b = 32 <;> simp only [h0, h32, if_true, if_false] <;> exact Reads.pure _
  · rw [if_neg ht]
    by_cases h0 : b = 0
    · rw [if_pos h0, if_pos h0]
      subst h0
      rw [← zeros_eq hvalues hlength (hzero rfl)]
      exact Reads.pure _
    · rw [if_neg h0, if_neg h0]
      by_cases h32 : b = 32
      · rw [if_pos h32, if_pos h32]
        exact (readWords_reads values (lt_of_width hvalues hb)).bind_pure (f := fun words => copyOut words out)
      · rw [if_neg h32, if_neg h32]
        have hloop := Reads.foldlM_range (f := unpackTailGroup b (values.length / 4) (values.length % 4))
          (s := fun g => (lanesAt b (lane b (groupsOf values)) g,
            values.take (min (4 * g) values.length) ++ out.drop (min (4 * g) values.length)))
          (w := groupBytes b (lane b (groupsOf values))) (n := (values.length + 3) / 4)
          fun g hg => unpackTailGroup_reads hb hvalues hlength hg
        have hend : min (4 * ((values.length + 3) / 4)) values.length = values.length := by omega
        have hstart : lanesAt b (lane b (groupsOf values)) 0 = {} := (unpacks_zero b _).eq.symm
        rw [flatMap_groupBytes hb, hend, List.take_length, hstart] at hloop
        simp only [Nat.mul_zero, Nat.zero_min, List.take_zero, List.drop_zero, List.nil_append] at hloop
        rw [length_groupsOf]
        exact hloop.bind_pure (f := fun s => s.2)

/-! ## Blocks and the tail -/

/-- Block `i` of some values. -/
def block (values : List ℕ) (i : ℕ) : List ℕ := (values.drop (i * blockSize)).take blockSize

theorem length_block {i : ℕ} (h : (i + 1) * blockSize ≤ values.length) :
    (block values i).length = 4 * 32 := by
  rw [Nat.succ_mul] at h
  unfold block
  rw [List.length_take, List.length_drop]
  unfold blockSize at *
  omega

theorem take_block (values : List ℕ) (i : ℕ) :
    values.take ((i + 1) * blockSize) = values.take (i * blockSize) ++ block values i := by
  rw [Nat.succ_mul, List.take_add]
  rfl

theorem packBlocks_eq (hb : b ≤ 32) {blocks : ℕ} : ∀ {values : List ℕ}, blocks * blockSize ≤ values.length →
    packBlocks b blocks values = (List.range blocks).flatMap fun i => payload b (block values i) := by
  induction blocks with
  | zero => intro values _; rfl
  | succ blocks ih =>
    intro values h
    rw [Nat.succ_mul] at h
    have hfirst : packFixed b values 32 = payload b (block values 0) := by
      have hfixed := packFixed_eq hb values 32 (by unfold blockSize at h; omega)
      rw [hfixed, block, Nat.zero_mul, List.drop_zero]
      rfl
    have hdrop : ∀ i, block (values.drop blockSize) i = block values (i + 1) := fun i => by
      unfold block
      rw [List.drop_drop, Nat.succ_mul, Nat.add_comm blockSize]
    rw [packBlocks, hfirst, ih (by rw [List.length_drop]; omega), List.range_succ_eq_map, List.flatMap_cons,
      List.flatMap_map]
    simp only [hdrop]

theorem unpackAt_reads (offset : ℕ) (out : List ℕ) {written : List ℕ} {bytes : List UInt8}
    (unpack : List ℕ → Reader (List ℕ)) (h : Reads (unpack (out.drop offset)) bytes written) : Reads (unpackAt offset out unpack) bytes (out.take offset ++ written) :=
  h.bind_pure (f := fun written => out.take offset ++ written)

theorem zeros_drop {n offset m : ℕ} (hzero : ∀ x ∈ out.take n, x = 0) (h : offset + m ≤ n) :
    ∀ x ∈ (out.drop offset).take m, x = 0 := by
  intro x hx
  rw [List.take_drop] at hx
  exact hzero x (List.take_subset_take_left _ h (List.mem_of_mem_drop hx))

/-- **All blocks.** -/
theorem unpackBlocks_reads (hb : b ≤ 32) (blocks : ℕ) (hvalues : ∀ v ∈ values, v < 2 ^ b)
    (hblocks : blocks * blockSize ≤ values.length) (hlength : values.length ≤ out.length)
    (hzero : b = 0 → ∀ x ∈ out.take values.length, x = 0) :
    Reads ((List.range blocks).foldlM (fun out i => unpackAt (i * blockSize) out (unpackFixed b 32)) out)
      (packBlocks b blocks values) (values.take (blocks * blockSize) ++ out.drop (blocks * blockSize)) := by
  have hstep : ∀ i < blocks, Reads
      (unpackAt (i * blockSize) (values.take (i * blockSize) ++ out.drop (i * blockSize)) (unpackFixed b 32))
      (payload b (block values i)) (values.take ((i + 1) * blockSize) ++ out.drop ((i + 1) * blockSize)) := by
    intro i hi
    have hend : (i + 1) * blockSize ≤ values.length := (Nat.mul_le_mul_right _ hi).trans hblocks
    have hstart : (values.take (i * blockSize)).length = i * blockSize := by
      rw [Nat.succ_mul] at hend
      rw [List.length_take]
      omega
    have hsize := length_block hend
    have hblock : (block values i).length = blockSize := hsize
    have hread := unpackFixed_reads hb (block values i) (out.drop (i * blockSize)) 32
      (fun v hv => hvalues v (List.mem_of_mem_drop (List.mem_of_mem_take hv))) hsize
      (by rw [Nat.succ_mul] at hend; rw [hblock, List.length_drop]; omega)
      (fun h0 => zeros_drop (hzero h0) (by rw [hblock, ← Nat.succ_mul]; exact hend))
    have hat := unpackAt_reads (i * blockSize) (values.take (i * blockSize) ++ out.drop (i * blockSize))
      (unpackFixed b 32) (by rw [List.drop_left' hstart]; exact hread)
    rw [List.take_left' hstart, hblock, List.drop_drop, ← List.append_assoc, ← take_block] at hat
    rw [Nat.succ_mul]
    rw [Nat.succ_mul] at hat
    exact hat
  have hloop := Reads.foldlM_range (f := fun out i => unpackAt (i * blockSize) out (unpackFixed b 32))
    (s := fun i => values.take (i * blockSize) ++ out.drop (i * blockSize)) (w := fun i => payload b (block values i)) hstep
  rw [packBlocks_eq hb hblocks]
  simpa using hloop

/-- **The whole input.** -/
theorem unpackingLength_reads (hb : b ≤ 32) (hvalues : ∀ v ∈ values, v < 2 ^ b)
    (hlength : values.length ≤ out.length) (hzero : b = 0 → ∀ x ∈ out.take values.length, x = 0) :
    Reads (unpackingLength values.length b out) (packingLength values values.length b) (values ++ out.drop values.length) := by
  have hsplit := Nat.div_add_mod values.length blockSize
  rw [Nat.mul_comm] at hsplit
  have hblocks := unpackBlocks_reads hb (values.length / blockSize) hvalues (by omega) hlength hzero
  unfold unpackingLength packingLength
  by_cases htail : values.length % blockSize = 0
  · have hall : values.length / blockSize * blockSize = values.length := by omega
    simp only [htail, if_true]
    rw [hall, List.take_length] at hblocks
    exact hblocks.bind_nil (Reads.pure _)
  · have hrest : (values.drop (values.length / blockSize * blockSize)).length = values.length % blockSize := by
      rw [List.length_drop]
      omega
    have hstart : (values.take (values.length / blockSize * blockSize)).length = values.length / blockSize * blockSize := by
      rw [List.length_take]
      omega
    have hread := unpackTail_reads hb (values.drop (values.length / blockSize * blockSize))
      (out.drop (values.length / blockSize * blockSize)) (fun v hv => hvalues v (List.mem_of_mem_drop hv))
      (by rw [hrest, List.length_drop]; omega) (fun h0 => zeros_drop (hzero h0) (by rw [hrest]; omega))
    have hat := unpackAt_reads (values.length / blockSize * blockSize)
      (values.take (values.length / blockSize * blockSize) ++ out.drop (values.length / blockSize * blockSize))
      (unpackTail b (values.drop (values.length / blockSize * blockSize)).length)
      (by rw [List.drop_left' hstart]; exact hread)
    rw [List.take_left' hstart, ← List.append_assoc, List.take_append_drop, List.drop_drop, ← packTail_eq hb, hrest,
      hsplit] at hat
    simp only [if_neg htail]
    exact hblocks.bind hat

theorem length_packBlocks (hb : b ≤ 32) (blocks : ℕ) (values : List ℕ) (h : blocks * blockSize ≤ values.length) :
    (packBlocks b blocks values).length = blocks * bitpackingCompressedBytes blockSize b := by
  have hlength : ∀ i ∈ List.range blocks, (payload b (block values i)).length = bitpackingCompressedBytes blockSize b := by
    intro i hi
    have hend := (Nat.mul_le_mul_right blockSize (List.mem_range.1 hi)).trans h
    rw [length_payload, length_block hend]
    rfl
  rw [packBlocks_eq hb h, List.length_flatMap, List.map_congr_left hlength]
  simp

theorem bitpackingCompressedBytes_add (b blocks tail : ℕ) :
    bitpackingCompressedBytes (blocks * blockSize + tail) b =
      blocks * bitpackingCompressedBytes blockSize b + bitpackingCompressedBytes tail b := by
  unfold bitpackingCompressedBytes blockSize
  by_cases h0 : b = 0
  · simp [h0]
  · by_cases h32 : b = 32
    · simp only [h32]
      norm_num
      omega
    · have hgroups : (blocks * 128 + tail + 3) / 4 = 32 * blocks + (tail + 3) / 4 := by omega
      have hmul : (32 * blocks + (tail + 3) / 4) * b = 32 * (blocks * b) + (tail + 3) / 4 * b := by ring
      have hblock : ((128 + 3) / 4 * b + 31) / 32 * 16 = b * 16 := by omega
      have hassoc : blocks * (b * 16) = blocks * b * 16 := by ring
      simp only [if_neg h0, if_neg h32, hgroups, hmul, hblock, hassoc]
      omega

/-- **The size of the whole input.** -/
theorem length_packingLength (hb : b ≤ 32) (values : List ℕ) :
    (packingLength values values.length b).length = bitpackingCompressedBytes values.length b := by
  have hsplit := Nat.div_add_mod values.length blockSize
  rw [Nat.mul_comm] at hsplit
  have hblocks := length_packBlocks hb (values.length / blockSize) values (by omega)
  have hsize := bitpackingCompressedBytes_add b (values.length / blockSize) (values.length % blockSize)
  rw [hsplit] at hsize
  unfold packingLength
  by_cases htail : values.length % blockSize = 0
  · have hnone : bitpackingCompressedBytes 0 b = 0 := by simp [bitpackingCompressedBytes]
    simp only [htail, if_true]
    rw [hblocks, hsize, htail, hnone, Nat.add_zero]
  · have hrest : (values.drop (values.length / blockSize * blockSize)).length = values.length % blockSize := by
      rw [List.length_drop]
      omega
    have hpack := packTail_eq hb (values.drop (values.length / blockSize * blockSize))
    rw [hrest] at hpack
    simp only [if_neg htail]
    rw [List.length_append, hblocks, hpack, length_payload, hrest, hsize]

theorem decode_reads (hb : b ≤ 32) (hvalues : ∀ v ∈ values, v < 2 ^ b)
    (hlength : values.length ≤ out.length) (hzero : b = 0 → ∀ x ∈ out.take values.length, x = 0) :
    Reads (decode values.length b out) (packingLength values values.length b)
      ((packingLength values values.length b).length, values ++ out.drop values.length) := by
  intro rest
  have hread : unpackingLength values.length b out (packingLength values values.length b ++ rest) =
      .ok (values ++ out.drop values.length, rest) := unpackingLength_reads hb hvalues hlength hzero rest
  show decode values.length b out (packingLength values values.length b ++ rest) = _
  unfold decode
  rw [if_neg (by omega), hread]
  simp

/-- **What was packed is unpacked.** `calculateNeededBytesAndMaxBits` finds the least width
and the size; for every width that the values fit in, `encode` writes so many bytes and
`decode` reads exactly these and gives back the values, whatever the output array held
(zeros, when the width is 0). -/
theorem encode_decode {values : List ℕ} (hvalues : ∀ v ∈ values, v < 2 ^ 32) :
    (∃ w, calculateNeededBytesAndMaxBits values = (bitpackingCompressedBytes values.length w, w) ∧ w ≤ 32 ∧
      (∀ v ∈ values, v < 2 ^ w) ∧ ∀ c, (∀ v ∈ values, v < 2 ^ c) → w ≤ c) ∧
    ∀ b ≤ 32, (∀ v ∈ values, v < 2 ^ b) → ∀ out : List ℕ, values.length ≤ out.length →
      (b = 0 → ∀ x ∈ out.take values.length, x = 0) →
      ∃ written, encode values b = .ok written ∧ written.length = bitpackingCompressedBytes values.length b ∧
        Reads (decode values.length b out) written (written.length, values ++ out.drop values.length) := by
  refine ⟨⟨maxbitsLength values, rfl, (maxbitsLength_le_iff hvalues).2 hvalues, (maxbitsLength_le_iff hvalues).1 le_rfl,
    fun c hc => (maxbitsLength_le_iff hvalues).2 hc⟩, ?_⟩
  intro b hb hwidth out hlength hzero
  exact ⟨packingLength values values.length b, if_neg (by omega), length_packingLength hb values,
    decode_reads hb hwidth hlength hzero⟩

/-- Three values in two bits, into an array of four. -/
theorem encode_decode_three_values : ∃ written, encode [1, 2, 3] 2 = .ok written ∧
    written.length = bitpackingCompressedBytes 3 2 ∧ Reads (decode 3 2 [7, 7, 7, 7]) written (written.length, [1, 2, 3, 7]) :=
  (encode_decode (by decide)).2 2 (by decide) (by decide) [7, 7, 7, 7] (by decide) (by decide)

end BitpackingBlockCodec

end MergeTree
