import MergeTree.Lib.BitString
import MergeTree.Lib.Lists
import MergeTree.Spec.MergedPartOffsets

/-!
# A row is found where it was merged

* `Page.ofValues_decodes`: a page gives back the values it was made of. The memory of the
  page holds the bit string of the distances, word by word (`Holds`).
* `PackedPartOffsets.Stores`: the positions of one part, in full pages and a rest.
* `MergedPartOffsets.Tracks`: all maps after some rows.
* `get_occurrence`: the `k`-th row of a part stands where it was inserted.
-/

namespace MergeTree

variable {P : PackedPartOffsets} {chunks : List (List ℕ)} {vals : List ℕ} {s : BitString}

/-! ## Pages -/

namespace Page

/-- **The memory holds the bit string**, in words of 64 bits. -/
def Holds (data : List ℕ) (s : BitString) : Prop := ∀ j, 64 * j < s.size → data[j]? = some (s.field (64 * j) 64)

theorem writeWord_eq {data : List ℕ} {pos : ℕ} (h : pos < data.length) (word : ℕ) :
    writeWord data pos word = some (data.set pos word) := if_pos h

theorem packValue_start {data : List ℕ} {bits pos val : ℕ} (hs : Holds data s) (hsize : s.size = 64 * pos)
    (hbits : bits ≤ 64) (hval : val < 2 ^ bits) (hpos : pos < data.length) :
    ∃ data', packValue bits val pos 0 data = some data' ∧ data'.length = data.length ∧ Holds data' (s.push bits val) := by
  refine ⟨data.set pos val, by rw [packValue, if_pos rfl, writeWord_eq hpos], List.length_set, ?_⟩
  intro j hj
  rw [BitString.size_push, hsize] at hj
  by_cases hjp : j = pos
  · have htail := BitString.tail_push_add (s := s) bits val 0
    rw [Nat.add_zero, Nat.pow_zero, Nat.div_one, Nat.mod_eq_of_lt hval] at htail
    rw [BitString.field_eq_tail (by rw [BitString.size_push]; omega), hjp, ← hsize, htail, List.getElem?_set_self hpos]
  · rw [List.getElem?_set_ne (fun h => hjp h.symm), hs j (by omega), BitString.field_push_of_le (by omega)]

theorem packValue_inside {data : List ℕ} {bits pos offset val : ℕ} (hs : Holds data s)
    (hsize : s.size = 64 * pos + offset) (h0 : 0 < offset) (hoffset : offset < 64) (hbits : bits ≤ 64)
    (hval : val < 2 ^ bits) (hspace : 64 * pos + offset + bits ≤ 64 * data.length) (hb0 : 0 < bits) :
    ∃ data', packValue bits val pos offset data = some data' ∧ data'.length = data.length ∧
      Holds data' (s.push bits val) := by
  have hpos : pos < data.length := by omega
  have hword : data[pos]? = some (s.field (64 * pos) 64) := hs pos (by omega)
  have htail : (s.push bits val).tail (64 * pos) = s.field (64 * pos) 64 + 2 ^ offset * val := by
    rw [BitString.tail_push (by omega), BitString.field_eq_tail (by omega), Nat.mod_eq_of_lt hval]
    congr 3
    omega
  have hlow : s.field (64 * pos) 64 < 2 ^ offset := by
    rw [BitString.field_eq_tail (by omega)]
    exact BitString.tail_lt (by omega)
  have hnew : s.field (64 * pos) 64 ||| (val <<< offset) % 2 ^ 64 = (s.push bits val).field (64 * pos) 64 := by
    rw [BitString.or_shiftLeft_mod hlow (by omega), ← htail]
    rfl
  have hkeep : ∀ j < pos, data[j]? = some ((s.push bits val).field (64 * j) 64) := fun j hj => by
    rw [hs j (by omega), BitString.field_push_of_le (by omega)]
  unfold packValue
  rw [if_neg (by omega), hword]
  simp only [Option.bind_eq_bind, Option.bind_some, writeWord_eq hpos, hnew]
  by_cases hover : 64 < offset + bits
  · have hnext : val >>> (64 - offset) = (s.push bits val).field (64 * (pos + 1)) 64 := by
      have hstart : 64 * (pos + 1) = s.size + (64 - offset) := by omega
      rw [BitString.field_eq_tail (by rw [BitString.size_push]; omega), hstart, BitString.tail_push_add,
        Nat.mod_eq_of_lt hval, Nat.shiftRight_eq_div_pow]
    rw [if_pos hover, writeWord_eq (by rw [List.length_set]; omega)]
    refine ⟨_, rfl, by rw [List.length_set, List.length_set], ?_⟩
    intro j hj
    rw [BitString.size_push] at hj
    by_cases hj1 : j = pos + 1
    · rw [hj1, List.getElem?_set_self (by rw [List.length_set]; omega), hnext]
    · rw [List.getElem?_set_ne (fun h => hj1 h.symm)]
      by_cases hjp : j = pos
      · rw [hjp, List.getElem?_set_self hpos]
      · rw [List.getElem?_set_ne (fun h => hjp h.symm), hkeep j (by omega)]
  · rw [if_neg hover]
    refine ⟨_, rfl, List.length_set, ?_⟩
    intro j hj
    rw [BitString.size_push] at hj
    by_cases hjp : j = pos
    · rw [hjp, List.getElem?_set_self hpos]
    · rw [List.getElem?_set_ne (fun h => hjp h.symm), hkeep j (by omega)]

theorem packValue_holds {data : List ℕ} {bits pos offset val : ℕ} (hs : Holds data s)
    (hsize : s.size = 64 * pos + offset) (hoffset : offset < 64) (hb0 : 0 < bits) (hbits : bits ≤ 64)
    (hval : val < 2 ^ bits) (hspace : s.size + bits ≤ 64 * data.length) :
    ∃ data', packValue bits val pos offset data = some data' ∧ data'.length = data.length ∧
      Holds data' (s.push bits val) := by
  by_cases h0 : offset = 0
  · subst h0
    exact packValue_start hs hsize hbits hval (by omega)
  · exact packValue_inside hs hsize (by omega) hoffset hbits hval (by omega) hb0

/-- **The loop of the constructor**: it appends the distances to the bit string. -/
theorem packLoop_holds {minVal bits : ℕ} (hb0 : 0 < bits) (hbits : bits ≤ 64) :
    ∀ {pos offset : ℕ} {data : List ℕ} {s : BitString}, Holds data s → s.size = 64 * pos + offset → offset < 64 →
      (∀ v ∈ vals, subSize v minVal < 2 ^ bits) → s.size + bits * vals.length ≤ 64 * data.length →
      ∃ data', packLoop minVal bits vals pos offset data = some data' ∧
        Holds data' ((vals.map (subSize · minVal)).foldl (fun s v => s.push bits v) s) := by
  induction vals with
  | nil => intro pos offset data s hs _ _ _ _; exact ⟨data, rfl, hs⟩
  | cons v vals ih =>
    intro pos offset data s hs hsize hoffset hvals hspace
    rw [List.length_cons, Nat.mul_succ] at hspace
    obtain ⟨data₁, hpack, hlength, hs₁⟩ := packValue_holds hs hsize hoffset hb0 hbits
      (hvals v List.mem_cons_self) (by omega)
    have hrest : ∀ u ∈ vals, subSize u minVal < 2 ^ bits := fun u hu => hvals u (List.mem_cons_of_mem _ hu)
    have hsize₁ : (s.push bits (subSize v minVal)).size = s.size + bits := rfl
    have hspace₁ : (s.push bits (subSize v minVal)).size + bits * vals.length ≤ 64 * data₁.length := by omega
    simp only [packLoop, hpack, Option.bind_eq_bind, Option.bind_some, List.map_cons, List.foldl_cons]
    by_cases hfull : 64 ≤ offset + bits
    · rw [if_pos hfull]
      exact ih hs₁ (by omega) (by omega) hrest hspace₁
    · rw [if_neg hfull]
      exact ih hs₁ (by omega) (by omega) hrest hspace₁

/-- The page gives back the values. -/
structure Decodes (page : Page) (vals : List ℕ) : Prop where
  numVals : page.numVals = vals.length
  get : ∀ i (h : i < vals.length), page.get i = some vals[i]

theorem single_decodes (val : ℕ) : Decodes (single val) [val] := by
  refine ⟨rfl, fun i h => ?_⟩
  have hi : i = 0 := by
    rw [List.length_singleton] at h
    omega
  subst hi
  rfl

/-- **Reads a distance** out of the memory of the page. -/
theorem get_eq {page : Page} (hs : Holds page.compressedData s) (hbits : page.bitsPerVal ≤ 64)
    (hb0 : 0 < page.bitsPerVal) {i : ℕ} (h0 : i ≠ 0) (hi : i < page.numVals) (hsize : page.bitsPerVal * i ≤ s.size) :
    page.get i = some (addSize page.minVal (s.field (page.bitsPerVal * (i - 1)) page.bitsPerVal)) := by
  have hbit : page.bitsPerVal * i = page.bitsPerVal * (i - 1) + page.bitsPerVal := by
    rw [← Nat.mul_succ]
    congr 1
    omega
  have hcomm : (i - 1) * page.bitsPerVal = page.bitsPerVal * (i - 1) := Nat.mul_comm _ _
  unfold get
  rw [if_neg (by omega), if_neg h0]
  simp only [hcomm, Option.bind_eq_bind]
  generalize hp : page.bitsPerVal * (i - 1) = p at *
  have hsplit : p = 64 * (p / 64) + p % 64 := by omega
  have hword : page.compressedData[p / 64]? = some (s.field (64 * (p / 64)) 64) := hs _ (by omega)
  rw [hword, Option.bind_some]
  unfold maskLowBits
  by_cases hover : 64 < p % 64 + page.bitsPerVal
  · have hnext : page.compressedData[p / 64 + 1]? = some (s.field (64 * (p / 64) + 64) 64) := hs (p / 64 + 1) (by omega)
    have hfield := s.field_of_words (p := 64 * (p / 64)) (o := p % 64) (b := page.bitsPerVal) (w := 64) (by omega) hbits
    rw [← hsplit] at hfield
    simp only [if_pos hover, hnext, Option.bind_some, Nat.and_two_pow_sub_one_eq_mod, hfield, Option.pure_def]
  · have hfield := s.field_of_word (p := 64 * (p / 64)) (o := p % 64) (b := page.bitsPerVal) (w := 64) (by omega)
    rw [← hsplit] at hfield
    simp only [if_neg hover, Option.bind_some, Nat.and_two_pow_sub_one_eq_mod, hfield, Option.pure_def]

/-- **A page gives back the values it was made of**, whatever its memory held before. -/
theorem ofValues_decodes {front : ℕ} {vals data : List ℕ} {bits : ℕ} (hb0 : 0 < bits) (hbits : bits ≤ 64)
    (hvals : ∀ v ∈ vals, front ≤ v ∧ v < 2 ^ 64 ∧ v - front < 2 ^ bits) (hspace : bits * vals.length ≤ 64 * data.length) :
    ∃ page, ofValues (front :: vals) bits data = some page ∧ Decodes page (front :: vals) := by
  have hsub : ∀ v ∈ vals, subSize v front = v - front := fun v hv =>
    subSize_of_le (hvals v hv).1 (hvals v hv).2.1
  have hempty : Holds data BitString.empty := fun j hj => absurd hj (Nat.not_lt_zero _)
  have hloop : ∃ data', packLoop front bits vals 0 0 data = some data' ∧
      Holds data' (BitString.pack bits (vals.map (subSize · front))) :=
    packLoop_holds hb0 hbits hempty rfl (by norm_num) (fun v hv => by rw [hsub v hv]; exact (hvals v hv).2.2)
      (by simpa using hspace)
  obtain ⟨data', hpack, hs⟩ := hloop
  refine ⟨⟨vals.length + 1, front, bits, data'⟩, by simp [ofValues, hpack], rfl, ?_⟩
  intro i hi
  rw [List.length_cons] at hi
  by_cases h0 : i = 0
  · subst h0
    simp [get]
  · obtain ⟨k, rfl⟩ : ∃ k, i = k + 1 := ⟨i - 1, by omega⟩
    have hk : k < (vals.map (subSize · front)).length := by
      rw [List.length_map]
      omega
    have hsize : bits * (k + 1) ≤ (BitString.pack bits (vals.map (subSize · front))).size := by
      rw [BitString.size_pack, List.length_map]
      exact Nat.mul_le_mul_left _ (by omega)
    have hmem : vals[k] ∈ vals := List.getElem_mem _
    obtain ⟨hle, hlt, hdist⟩ := hvals _ hmem
    have hadd : addSize front (vals[k] - front) = vals[k] := by
      rw [addSize_of_lt (by omega)]
      omega
    rw [get_eq (s := BitString.pack bits (vals.map (subSize · front))) hs hbits hb0 h0 hi hsize, Nat.add_sub_cancel,
      BitString.field_pack hk, List.getElem_map, hsub _ hmem, Nat.mod_eq_of_lt hdist, List.getElem_cons_succ]
    exact congrArg some hadd

end Page

/-! ## The positions of one part -/

namespace PackedPartOffsets

/-- **What the pages and the current values hold**: `vals`, of which all pages are full. -/
structure Stores (P : PackedPartOffsets) (chunks : List (List ℕ)) (vals : List ℕ) : Prop where
  pages : List.Forall₂ Page.Decodes P.pages chunks
  full : ∀ c ∈ chunks, c.length = packedPageSize
  eq : vals = chunks.flatten ++ P.currentPageValues
  rest : P.currentPageValues.length ≤ packedPageSize
  sorted : vals.Pairwise (· < ·)
  size : ∀ v ∈ vals, v < 2 ^ 64

theorem bits_needed {front : ℕ} (hne : vals ≠ []) (hsorted : (front :: vals).Pairwise (· < ·))
    (hsize : ∀ v ∈ front :: vals, v < 2 ^ 64) :
    let bits := 64 - getLeadingZeroBits (subSize ((front :: vals).getLastD 0) front)
    0 < bits ∧ bits ≤ 64 ∧ ∀ v ∈ vals, front ≤ v ∧ v < 2 ^ 64 ∧ v - front < 2 ^ bits := by
  intro bits
  obtain ⟨u, hu⟩ := List.exists_mem_of_ne_nil vals hne
  have hfront : ∀ v ∈ vals, front < v := (List.pairwise_cons.1 hsorted).1
  have hback : ∀ v ∈ vals, v ≤ (front :: vals).getLastD 0 := fun v hv =>
    le_getLastD hsorted (List.mem_cons_of_mem _ hv)
  have hmem : (front :: vals).getLastD 0 ∈ front :: vals := by
    rw [List.getLastD_eq_getLast?, List.getLast?_eq_some_getLast (List.cons_ne_nil _ _)]
    exact List.getLast_mem _
  have hlast := hsize _ hmem
  have huback := hback u hu
  have hufront := hfront u hu
  have hd : subSize ((front :: vals).getLastD 0) front = (front :: vals).getLastD 0 - front :=
    subSize_of_le (by omega) hlast
  have hbits : bits = ((front :: vals).getLastD 0 - front).size := by
    have hle : ((front :: vals).getLastD 0 - front).size ≤ 64 := Nat.size_le.2 (by omega)
    show 64 - getLeadingZeroBits (subSize ((front :: vals).getLastD 0) front) = _
    rw [hd]
    unfold getLeadingZeroBits
    omega
  refine ⟨?_, by show 64 - _ ≤ 64; omega, ?_⟩
  · rw [hbits, Nat.size_pos]
    omega
  · intro v hv
    have hvfront := hfront v hv
    have hvback := hback v hv
    have hlt := Nat.lt_size_self ((front :: vals).getLastD 0 - front)
    rw [← hbits] at hlt
    exact ⟨by omega, by omega, by omega⟩

/-- **`flush` puts the current values in a page.** -/
theorem flush_page {front : ℕ} (hcurrent : P.currentPageValues = front :: vals)
    (hsorted : (front :: vals).Pairwise (· < ·)) (hsize : ∀ v ∈ front :: vals, v < 2 ^ 64) :
    ∃ P' page, P.flush = some P' ∧ P'.pages = P.pages ++ [page] ∧ Page.Decodes page (front :: vals) ∧
      (vals ≠ [] → P'.currentPageValues = []) := by
  cases vals with
  | nil =>
    refine ⟨{ P with pages := P.pages ++ [Page.single front] }, Page.single front, ?_, rfl, Page.single_decodes front,
      fun h => absurd rfl h⟩
    unfold flush
    rw [hcurrent]
  | cons v vals =>
    obtain ⟨hpos, hle, hvals⟩ := bits_needed (by simp) hsorted hsize
    unfold flush
    simp only [hcurrent]
    generalize 64 - getLeadingZeroBits (subSize ((front :: v :: vals).getLastD 0) front) = bits at *
    have hcomm : ((front :: v :: vals).length - 1) * bits = bits * (v :: vals).length := by
      rw [List.length_cons, Nat.add_sub_cancel, Nat.mul_comm]
    have hbits : 0 < bits * (v :: vals).length := Nat.mul_pos hpos (by simp)
    rw [hcomm]
    have hspace : bits * (v :: vals).length ≤ 64 * (P.alloc ((bits * (v :: vals).length + 63) / 64)).length := by
      rw [alloc, List.length_map, List.length_range]
      omega
    obtain ⟨page, hpage, hdecodes⟩ := Page.ofValues_decodes hpos hle hvals hspace
    refine ⟨{ P with pages := P.pages ++ [page], currentPageValues := [] }, page, ?_, rfl, hdecodes, fun _ => rfl⟩
    rw [if_neg (by omega), hpage]
    rfl

theorem Stores.insert_pushed (h : Stores P chunks vals)
    {val : ℕ} (hval : ∀ v ∈ vals, v < val) (hsize : val < 2 ^ 64) (hlen : P.currentPageValues.length < packedPageSize) :
    Stores { P with currentPageValues := P.currentPageValues ++ [val] } chunks (vals ++ [val]) := by
  refine ⟨h.pages, h.full, ?_, ?_, ?_, ?_⟩
  · rw [h.eq, List.append_assoc]
  · rw [List.length_append, List.length_singleton]
    omega
  · rw [List.pairwise_append]
    refine ⟨h.sorted, List.pairwise_singleton _ _, ?_⟩
    intro v hv u hu
    rw [List.mem_singleton.1 hu]
    exact hval v hv
  · intro v hv
    rcases List.mem_append.1 hv with hv | hv
    · exact h.size v hv
    · rw [List.mem_singleton.1 hv]
      exact hsize

theorem Stores.flush_full (h : Stores P chunks vals) (hlen : P.currentPageValues.length = packedPageSize) :
    ∃ P', P.flush = some P' ∧ Stores P' (chunks ++ [P.currentPageValues]) vals ∧ P'.currentPageValues = [] := by
  cases hcurrent : P.currentPageValues with
  | nil =>
    rw [hcurrent] at hlen
    cases hlen
  | cons front rest =>
    rw [hcurrent] at hlen
    have hsub : (front :: rest).Sublist vals := by
      rw [h.eq, hcurrent]
      exact List.sublist_append_right _ _
    obtain ⟨P', page, hflush, hpages, hdecodes, hclear⟩ := flush_page hcurrent (h.sorted.sublist hsub)
      (fun v hv => h.size v (hsub.subset hv))
    have hnil : P'.currentPageValues = [] := by
      apply hclear
      rintro rfl
      cases hlen
    refine ⟨P', hflush, ⟨?_, ?_, ?_, ?_, h.sorted, h.size⟩, hnil⟩
    · rw [hpages]
      exact List.rel_append h.pages (List.Forall₂.cons hdecodes List.Forall₂.nil)
    · intro chunk hchunk
      rcases List.mem_append.1 hchunk with hchunk | hchunk
      · exact h.full chunk hchunk
      · rw [List.mem_singleton.1 hchunk, hlen]
    · rw [hnil, h.eq, hcurrent]
      simp
    · rw [hnil]
      exact Nat.zero_le _

/-- **`insert` of a greater value.** -/
theorem Stores.insert (h : Stores P chunks vals) {val : ℕ} (hval : ∀ v ∈ vals, v < val) (hsize : val < 2 ^ 64) :
    ∃ P' chunks', P.insert val = some P' ∧ Stores P' chunks' (vals ++ [val]) ∧ P'.currentPageValues ≠ [] := by
  have hlast : ∀ v ∈ P.currentPageValues, v < val := fun v hv =>
    hval v (by rw [h.eq]; exact List.mem_append_right _ hv)
  unfold PackedPartOffsets.insert
  by_cases hfull : packedPageSize ≤ P.currentPageValues.length
  · obtain ⟨P', hflush, hstores, hnil⟩ := h.flush_full (le_antisymm h.rest hfull)
    refine ⟨{ P' with currentPageValues := P'.currentPageValues ++ [val] }, _, ?_,
      hstores.insert_pushed hval hsize (by rw [hnil]; decide), by simp⟩
    simp only [if_pos hfull, hflush, Option.bind_eq_bind, Option.bind_some]
    rw [if_pos (Or.inl hnil)]
    rfl
  · have hok : P.currentPageValues = [] ∨ P.currentPageValues.getLastD 0 < val := by
      by_cases hnil : P.currentPageValues = []
      · exact Or.inl hnil
      · right
        apply hlast
        rw [List.getLastD_eq_getLast?, List.getLast?_eq_some_getLast hnil]
        exact List.getLast_mem _
    refine ⟨{ P with currentPageValues := P.currentPageValues ++ [val] }, chunks, ?_,
      h.insert_pushed hval hsize (by omega), by simp⟩
    simp only [if_neg hfull, Option.bind_eq_bind, Option.bind_some]
    rw [if_pos hok]
    rfl

theorem get_eq {last : List ℕ}
    (hpages : List.Forall₂ Page.Decodes P.pages (chunks ++ [last])) (hfull : ∀ chunk ∈ chunks, chunk.length = packedPageSize)
    (hlast : last.length ≤ packedPageSize) {i : ℕ} (hi : i < (chunks.flatten ++ last).length) :
    P.get i = some (chunks.flatten ++ last)[i] := by
  have hshift : i >>> packedPageSizeDegree = i / packedPageSize := Nat.shiftRight_eq_div_pow _ _
  have hmask : i &&& packedPageMask = i % packedPageSize := Nat.and_two_pow_sub_one_eq_mod _ 10
  have hchunk := getElem?_flatten_append (n := packedPageSize) (by decide) hfull hlast i
  rw [List.getElem?_eq_getElem hi] at hchunk
  obtain ⟨chunk, hget, hval⟩ := Option.bind_eq_some_iff.1 hchunk.symm
  obtain ⟨hlt, hval⟩ := List.getElem?_eq_some_iff.1 hval
  obtain ⟨hj, hchunkEq⟩ := List.getElem?_eq_some_iff.1 hget
  have hj' : i / packedPageSize < P.pages.length := by
    rw [hpages.length_eq]
    exact hj
  have hdecodes : Page.Decodes P.pages[i / packedPageSize] chunk := by
    rw [← hchunkEq]
    exact List.forall₂_iff_get.1 hpages |>.2 _ hj' hj
  unfold get
  rw [hshift, hmask, List.getElem?_eq_getElem hj', Option.bind_eq_bind, Option.bind_some, hdecodes.get _ hlt, hval]

/-- **After the last `flush` every value is found.** -/
theorem Stores.flush (h : Stores P chunks vals) (hne : P.currentPageValues = [] → vals = []) :
    ∃ P', P.flush = some P' ∧ ∀ i (hi : i < vals.length), P'.clearTemporaryStorage.get i = some vals[i] := by
  cases hcurrent : P.currentPageValues with
  | nil =>
    refine ⟨P, by unfold PackedPartOffsets.flush; rw [hcurrent], fun i hi => ?_⟩
    rw [hne hcurrent] at hi
    cases hi
  | cons front rest =>
    have hsub : (front :: rest).Sublist vals := by
      rw [h.eq, hcurrent]
      exact List.sublist_append_right _ _
    obtain ⟨P', page, hflush, hpages, hdecodes, -⟩ := flush_page hcurrent (h.sorted.sublist hsub)
      (fun v hv => h.size v (hsub.subset hv))
    have hall : List.Forall₂ Page.Decodes P'.clearTemporaryStorage.pages (chunks ++ [front :: rest]) := by
      show List.Forall₂ Page.Decodes P'.pages _
      rw [hpages]
      exact List.rel_append h.pages (List.Forall₂.cons hdecodes List.Forall₂.nil)
    have hrest := h.rest
    have heq := h.eq
    rw [hcurrent] at hrest heq
    refine ⟨P', hflush, fun i hi => ?_⟩
    subst heq
    exact get_eq hall h.full hrest hi

end PackedPartOffsets

/-! ## All parts -/

namespace MergedPartOffsets

/-- The positions of a part in a sequence of rows. -/
def occurrences (p : ℕ) (rows : List ℕ) : List ℕ := (List.range rows.length).filter fun i => rows[i]? = some p

theorem occurrences_append (p q : ℕ) (rows : List ℕ) :
    occurrences p (rows ++ [q]) = if q = p then occurrences p rows ++ [rows.length] else occurrences p rows := by
  have hbefore : (List.range rows.length).filter (fun i => (rows ++ [q])[i]? = some p) = occurrences p rows := by
    apply List.filter_congr
    intro i hi
    rw [List.getElem?_append_left (List.mem_range.1 hi)]
  have hlast : (rows ++ [q])[rows.length]? = some q := by simp
  unfold occurrences at hbefore ⊢
  rw [List.length_append, List.length_singleton, List.range_succ, List.filter_append, hbefore]
  by_cases h : q = p
  · simp [h]
  · simp [h]

theorem mem_occurrences {p i : ℕ} {rows : List ℕ} (h : i ∈ occurrences p rows) : i < rows.length :=
  List.mem_range.1 (List.mem_filter.1 h).1

/-- **The positions of a part**: the one with `k` occurrences before it comes at place `k`. -/
theorem occurrences_spec (p : ℕ) (rows : List ℕ) : (occurrences p rows).length = rows.count p ∧
    ∀ k (h : k < (occurrences p rows).length), rows[(occurrences p rows)[k]]? = some p ∧
      (rows.take (occurrences p rows)[k]).count p = k := by
  induction rows using List.reverseRecOn with
  | nil => exact ⟨rfl, fun k h => absurd h (Nat.not_lt_zero k)⟩
  | append_singleton rows q ih =>
    obtain ⟨hlength, hpos⟩ := ih
    have hold : ∀ k (h : k < (occurrences p rows).length), (rows ++ [q])[(occurrences p rows)[k]]? = some p ∧
        ((rows ++ [q]).take (occurrences p rows)[k]).count p = k := by
      intro k h
      have hlt := mem_occurrences (List.getElem_mem h)
      rw [List.getElem?_append_left hlt, List.take_append_of_le_length hlt.le]
      exact hpos k h
    by_cases hq : q = p
    · have happend : occurrences p (rows ++ [q]) = occurrences p rows ++ [rows.length] := by
        rw [occurrences_append, if_pos hq]
      simp only [happend]
      refine ⟨by simp [hlength, hq], fun k h => ?_⟩
      by_cases hk : k < (occurrences p rows).length
      · rw [List.getElem_append_left hk]
        exact hold k hk
      · have hk' : k = (occurrences p rows).length := by
          rw [List.length_append, List.length_singleton] at h
          omega
        subst hk'
        rw [List.getElem_concat_length rfl]
        refine ⟨by simp [hq], ?_⟩
        rw [List.take_left', hlength]
        rfl
    · have hsame : occurrences p (rows ++ [q]) = occurrences p rows := by
        rw [occurrences_append, if_neg hq]
      simp only [hsame]
      exact ⟨by rw [hlength, List.count_append]; simp [hq], hold⟩

/-- **All maps after some rows.** -/
structure Tracks (M : MergedPartOffsets) (numParts : ℕ) (rows : List ℕ) : Prop where
  mode : M.mode = .Enabled
  finalized : M.finalized = false
  numRows : M.numRows = rows.length
  parts : M.offsetMaps.length = numParts
  maps : ∀ p < numParts, ∃ map chunks, M.offsetMaps[p]? = some map ∧ map.Stores chunks (occurrences p rows) ∧
    (map.currentPageValues = [] → occurrences p rows = [])

theorem make_tracks (numParts : ℕ) (arenas : ℕ → ℕ → ℕ → ℕ) : Tracks (make numParts .Enabled arenas) numParts [] := by
  refine ⟨rfl, rfl, rfl, by simp [make], fun p hp => ⟨{ arena := arenas p }, [], ?_, ?_, fun _ => rfl⟩⟩
  · simp [make, hp]
  · exact ⟨List.Forall₂.nil, by simp, rfl, Nat.zero_le _, List.Pairwise.nil, by simp [occurrences]⟩

/-- **One row.** -/
theorem Tracks.insertRow {M : MergedPartOffsets} {numParts q : ℕ} {rows : List ℕ} (h : Tracks M numParts rows)
    (hq : q < numParts) (hrows : rows.length + 1 < 2 ^ 64) :
    ∃ M', M.insertRow q = some M' ∧ Tracks M' numParts (rows ++ [q]) := by
  obtain ⟨map, chunks, hmap, hstores, -⟩ := h.maps q hq
  have hpositions : ∀ i ∈ occurrences q rows, i < rows.length := fun i hi => mem_occurrences hi
  obtain ⟨map', chunks', hinsert, hstores', hne⟩ := hstores.insert hpositions (by omega)
  obtain ⟨hlt, hmapEq⟩ := List.getElem?_eq_some_iff.1 hmap
  refine ⟨{ M with offsetMaps := M.offsetMaps.set q map', numRows := addSize M.numRows 1 }, ?_,
    ⟨h.mode, h.finalized, ?_, ?_, ?_⟩⟩
  · simp [MergedPartOffsets.insertRow, hmap, h.numRows, hinsert]
  · show addSize M.numRows 1 = _
    rw [h.numRows, addSize_of_lt hrows]
    simp
  · show (M.offsetMaps.set q map').length = numParts
    rw [List.length_set, h.parts]
  · intro p hp
    show ∃ map chunks, (M.offsetMaps.set q map')[p]? = some map ∧ _
    rw [occurrences_append]
    by_cases hpq : q = p
    · subst hpq
      rw [if_pos rfl]
      exact ⟨map', chunks', by simp [hlt], hstores', fun hnil => absurd hnil hne⟩
    · rw [if_neg hpq, List.getElem?_set_ne hpq]
      exact h.maps p hp

theorem Tracks.foldlM_insertRow {numParts : ℕ} {batch : List ℕ} : ∀ {M : MergedPartOffsets} {rows : List ℕ},
    Tracks M numParts rows → (∀ p ∈ batch, p < numParts) → rows.length + batch.length < 2 ^ 64 →
      ∃ M', batch.foldlM MergedPartOffsets.insertRow M = some M' ∧ Tracks M' numParts (rows ++ batch) := by
  induction batch with
  | nil => intro M rows h _ _; exact ⟨M, rfl, by simpa using h⟩
  | cons q batch ih =>
    intro M rows h hparts hrows
    rw [List.length_cons] at hrows
    obtain ⟨M₁, hrow, h₁⟩ := h.insertRow (hparts q List.mem_cons_self) (by omega)
    obtain ⟨M₂, hfold, h₂⟩ := ih h₁ (fun p hp => hparts p (List.mem_cons_of_mem _ hp))
      (by rw [List.length_append, List.length_singleton]; omega)
    refine ⟨M₂, ?_, by simpa using h₂⟩
    rw [List.foldlM_cons, hrow]
    exact hfold

/-- **Any batches of rows.** -/
theorem Tracks.foldlM_insert {numParts : ℕ} {batches : List (List ℕ)} : ∀ {M : MergedPartOffsets} {rows : List ℕ},
    Tracks M numParts rows → (∀ batch ∈ batches, ∀ p ∈ batch, p < numParts) →
      rows.length + batches.flatten.length < 2 ^ 64 →
      ∃ M', batches.foldlM MergedPartOffsets.insert M = some M' ∧ Tracks M' numParts (rows ++ batches.flatten) := by
  induction batches with
  | nil => intro M rows h _ _; exact ⟨M, rfl, by simpa using h⟩
  | cons batch batches ih =>
    intro M rows h hparts hrows
    rw [List.flatten_cons, List.length_append] at hrows
    obtain ⟨M₁, hbatch, h₁⟩ := h.foldlM_insertRow (hparts batch List.mem_cons_self) (by omega)
    obtain ⟨M₂, hfold, h₂⟩ := ih h₁ (fun b hb => hparts b (List.mem_cons_of_mem _ hb))
      (by rw [List.length_append]; omega)
    have hinsert : M.insert batch = some M₁ := by simp [MergedPartOffsets.insert, h.mode, hbatch]
    refine ⟨M₂, ?_, by simpa using h₂⟩
    rw [List.foldlM_cons, hinsert]
    exact hfold

theorem mapM_eq_some {f : PackedPartOffsets → Option PackedPartOffsets} {maps : List PackedPartOffsets}
    (h : ∀ map ∈ maps, (f map).isSome) : ∃ maps' : List PackedPartOffsets, maps.mapM f = some maps' ∧
      ∀ (i : ℕ) map, maps[i]? = some map → maps'[i]? = f map := by
  induction maps with
  | nil => exact ⟨[], rfl, fun i map hi => by simp at hi⟩
  | cons map maps ih =>
    obtain ⟨map', hmap⟩ := Option.isSome_iff_exists.1 (h map List.mem_cons_self)
    obtain ⟨maps', hmaps, hget⟩ := ih fun m hm => h m (List.mem_cons_of_mem _ hm)
    refine ⟨map' :: maps', by simp [List.mapM_cons, hmap, hmaps], ?_⟩
    intro i m hi
    cases i with
    | zero =>
      have hm : map = m := by simpa using hi
      simp [← hm, hmap]
    | succ i => simpa using hget i m (by simpa using hi)

/-- **`flush`**: every row of every part is found. -/
theorem Tracks.flush {M : MergedPartOffsets} {numParts : ℕ} {rows : List ℕ} (h : Tracks M numParts rows) :
    ∃ M', M.flush = some M' ∧ ∀ p < numParts, ∀ k (hk : k < (occurrences p rows).length),
      M'.get p k = some (occurrences p rows)[k] := by
  have hmode : M.mode ≠ .Disabled := by
    rw [h.mode]
    decide
  by_cases hempty : M.numRows = 0
  · refine ⟨{ M with finalized := true }, by simp [MergedPartOffsets.flush, hmode, h.finalized, hempty], fun p hp k hk => ?_⟩
    have hlt := mem_occurrences (List.getElem_mem hk)
    rw [h.numRows] at hempty
    omega
  · have hflush : ∀ map ∈ M.offsetMaps, (map.flush.map PackedPartOffsets.clearTemporaryStorage).isSome := by
      intro map hmem
      obtain ⟨p, hp, hget⟩ := List.getElem_of_mem hmem
      obtain ⟨map', chunks, hmap, hstores, hne⟩ := h.maps p (by rw [← h.parts]; exact hp)
      rw [List.getElem?_eq_getElem hp, hget] at hmap
      cases hmap
      obtain ⟨P', hP', -⟩ := hstores.flush hne
      simp [hP']
    obtain ⟨maps', hmaps, hget⟩ := mapM_eq_some hflush
    refine ⟨{ M with offsetMaps := maps', finalized := true }, ?_, fun p hp k hk => ?_⟩
    · simp [MergedPartOffsets.flush, hmode, h.finalized, hempty, hmaps]
    · obtain ⟨map, chunks, hmap, hstores, hne⟩ := h.maps p hp
      obtain ⟨P', hP', hvalues⟩ := hstores.flush hne
      have hmap' : maps'[p]? = some P'.clearTemporaryStorage := by
        rw [hget p map hmap, hP', Option.map_some]
      simp [MergedPartOffsets.get, h.mode, hmap', hvalues k hk]

/-- **A row is found where it was merged.** For any parts and any batches of rows, and
whatever the memory of the pages held before, the `k`-th row of a part is the row of the
result that comes from this part and has `k` rows of the part before it. -/
theorem get_occurrence (numParts : ℕ) (arenas : ℕ → ℕ → ℕ → ℕ) (batches : List (List ℕ))
    (hparts : ∀ batch ∈ batches, ∀ p ∈ batch, p < numParts) (hrows : batches.flatten.length < 2 ^ 64) :
    ∃ M M', batches.foldlM insert (make numParts .Enabled arenas) = some M ∧ M.flush = some M' ∧
      ∀ p < numParts, ∀ k < batches.flatten.count p, ∃ i, M'.get p k = some i ∧ batches.flatten[i]? = some p ∧
        (batches.flatten.take i).count p = k := by
  obtain ⟨M, hinsert, hM⟩ := (make_tracks numParts arenas).foldlM_insert hparts (by simpa using hrows)
  obtain ⟨M', hflush, hget⟩ := hM.flush
  rw [List.nil_append] at hget
  refine ⟨M, M', hinsert, hflush, fun p hp k hk => ?_⟩
  obtain ⟨hlength, hpos⟩ := occurrences_spec p batches.flatten
  rw [← hlength] at hk
  exact ⟨_, hget p hp k hk, hpos k hk⟩

/-- Two parts in two batches. -/
theorem get_occurrence_two_parts :
    ∃ M M', [[0, 1], [1, 0]].foldlM insert (make 2 .Enabled fun _ _ _ => 7) = some M ∧ M.flush = some M' ∧
      ∀ p < 2, ∀ k < [[0, 1], [1, 0]].flatten.count p, ∃ i, M'.get p k = some i ∧
        [[0, 1], [1, 0]].flatten[i]? = some p ∧ ([[0, 1], [1, 0]].flatten.take i).count p = k :=
  get_occurrence 2 (fun _ _ _ => 7) [[0, 1], [1, 0]] (by decide) (by decide)

end MergedPartOffsets

end MergeTree
