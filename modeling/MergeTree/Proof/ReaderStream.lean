import MergeTree.Lib.Loops
import MergeTree.Spec.ReaderStream

/-!
# The right bound cuts nothing

Both bounds come down to the first later mark of the column that begins a new compressed block
(`boundFrom`). It is behind the mark it starts from, and it grows with it
(`boundFrom_le`, `boundFrom_congr`). For one column the end of the search is the end of the
file; in a compact part it is the end of the column in its stripe
(`CompactLayout.getStartOfNextStripeMark_eq`), so that the bound stays in the stripe.
-/

namespace MergeTree

namespace MarkInCompressedFile

variable {m m' : MarkInCompressedFile}

theorem offset_le (h : m ≤ m') : m.offsetInCompressedFile ≤ m'.offsetInCompressedFile := by
  rw [le_def] at h
  omega

theorem offset_lt (h : m < m') (hzero : m'.offsetInDecompressedBlock = 0) :
    m.offsetInCompressedFile < m'.offsetInCompressedFile := by
  rw [lt_def] at h
  omega

theorem lt_of_offset_lt (h : m.offsetInCompressedFile < m'.offsetInCompressedFile) : m < m' := Or.inl h

theorem eq_of_offset_eq (h : m ≤ m') (hoffset : m.offsetInCompressedFile = m'.offsetInCompressedFile)
    (hzero : m'.offsetInDecompressedBlock = 0) : m = m' := by
  refine le_antisymm h ?_
  rw [le_def] at *
  omega

end MarkInCompressedFile

open MarkInCompressedFile

variable {m : MarkInCompressedFile}

/-! ## Searches over marks -/

section Searches

variable {p : ℕ → Bool} {start stop j : ℕ}

theorem firstMark_spec (h : start ≤ stop) :
    start ≤ firstMark p start stop ∧ firstMark p start stop ≤ stop ∧
      (∀ i, start ≤ i → i < firstMark p start stop → p i = false) ∧
      (firstMark p start stop < stop → p (firstMark p start stop) = true) := by
  unfold firstMark
  set l := List.range' start (stop - start)
  have hlength : l.length = stop - start := List.length_range'
  have hle : l.findIdx p ≤ l.length := List.findIdx_le_length
  refine ⟨by omega, by omega, fun i hi hlt => ?_, fun hlt => ?_⟩
  · have hindex : i - start < l.findIdx p := by omega
    have hnot := List.not_of_lt_findIdx hindex
    rw [List.getElem_range'] at hnot
    have hi_eq : start + 1 * (i - start) = i := by omega
    rw [hi_eq] at hnot
    simpa using hnot
  · have hindex : l.findIdx p < l.length := by omega
    have hfound := List.findIdx_getElem (w := hindex)
    rw [List.getElem_range', one_mul] at hfound
    exact hfound

theorem firstMark_eq (hstart : start ≤ j) (hj : j ≤ stop) (hbefore : ∀ i, start ≤ i → i < j → p i = false)
    (hfound : j < stop → p j = true) : firstMark p start stop = j := by
  obtain ⟨hle, hstop, hnone, hfirst⟩ := @firstMark_spec p start stop (by omega)
  rcases lt_trichotomy (firstMark p start stop) j with hlt | heq | hgt
  · have hcontra := hbefore _ hle hlt
    rw [hfirst (by omega)] at hcontra
    exact absurd hcontra (by decide)
  · exact heq
  · have hcontra := hnone j hstart hgt
    rw [hfound (by omega)] at hcontra
    exact absurd hcontra (by decide)

theorem lastMarkEnd_eq : ∀ {stop : ℕ}, j ≤ stop → (∀ i, j ≤ i → i < stop → p i = true) → (0 < j → p (j - 1) = false) →
    lastMarkEnd p stop = j := by
  intro stop
  induction stop with
  | zero =>
    intro hj _ _
    simp only [lastMarkEnd]
    omega
  | succ stop ih =>
    intro hj hall hstop
    rw [lastMarkEnd]
    rcases Nat.lt_or_ge stop j with hlt | hge
    · have hj_eq : j = stop + 1 := by omega
      subst hj_eq
      have hfalse : p stop = false := hstop (by omega)
      rw [if_neg (by rw [hfalse]; decide)]
    · rw [if_pos (hall stop hge (by omega))]
      exact ih hge (fun i hi hlt => hall i hi (by omega)) hstop

end Searches

/-! ## The first later mark in a new block -/

/-- The offset of the first later mark that begins a new compressed block, when it is before `limit`. -/
def boundFrom (f : ℕ → MarkInCompressedFile) (count : ℕ) (limit : MarkInCompressedFile) (k : ℕ) : ℕ :=
  let mark := firstMark (fun mark => (f k).offsetInCompressedFile < (f mark).offsetInCompressedFile) (k + 1) count
  if mark < count ∧ f mark < limit then (f mark).offsetInCompressedFile else limit.offsetInCompressedFile

section BoundFrom

variable {f : ℕ → MarkInCompressedFile} {count k k' : ℕ} {limit : MarkInCompressedFile}

/-- The bound is the limit, or the offset of a later mark before it that begins a new block. -/
theorem boundFrom_cases (hk : k < count) : boundFrom f count limit k = limit.offsetInCompressedFile ∨
    ∃ j, k < j ∧ j < count ∧ (f k).offsetInCompressedFile < (f j).offsetInCompressedFile ∧ f j < limit ∧
      boundFrom f count limit k = (f j).offsetInCompressedFile := by
  unfold boundFrom
  dsimp only
  obtain ⟨hle, -, -, hfound⟩ := @firstMark_spec
    (fun mark => (f k).offsetInCompressedFile < (f mark).offsetInCompressedFile) (k + 1) count hk
  split
  · rename_i h
    exact Or.inr ⟨_, hle, h.1, of_decide_eq_true (hfound h.1), h.2, rfl⟩
  · exact Or.inl rfl

theorem le_boundFrom (hk : k < count) (hlimit : f k ≤ limit) :
    (f k).offsetInCompressedFile ≤ boundFrom f count limit k := by
  rcases @boundFrom_cases f _ _ limit hk with heq | ⟨j, -, -, hlt, -, heq⟩
  · rw [heq]
    exact offset_le hlimit
  · rw [heq]
    exact hlt.le

theorem lt_boundFrom (hk : k < count) (hlimit : f k ≤ limit) (hzero : limit.offsetInDecompressedBlock = 0) (hm : m < f k) :
    m.offsetInCompressedFile < boundFrom f count limit k := by
  rcases @boundFrom_cases f _ _ limit hk with heq | ⟨j, -, -, hlt, -, heq⟩
  · rw [heq]
    exact offset_lt (hm.trans_le hlimit) hzero
  · rw [heq]
    exact (offset_le hm.le).trans_lt hlt

theorem boundFrom_le (hsorted : ∀ i j, i ≤ j → j < count → f i ≤ f j) (hk : k < k') (hk' : k' < count)
    (hoffset : (f k).offsetInCompressedFile < (f k').offsetInCompressedFile) :
    boundFrom f count limit k ≤ (f k').offsetInCompressedFile := by
  unfold boundFrom
  dsimp only
  set j := firstMark (fun mark => (f k).offsetInCompressedFile < (f mark).offsetInCompressedFile) (k + 1) count with hj
  obtain ⟨-, -, hnone, -⟩ := @firstMark_spec
    (fun mark => (f k).offsetInCompressedFile < (f mark).offsetInCompressedFile) (k + 1) count (by omega)
  have hj_le : j ≤ k' := by
    by_contra hlt
    have hfalse := hnone k' hk (by omega)
    rw [decide_eq_true hoffset] at hfalse
    exact absurd hfalse (by decide)
  have hjk := offset_le (hsorted j k' hj_le hk')
  split
  · exact hjk
  · rename_i h
    rw [not_and, not_lt] at h
    exact (offset_le (h (by omega))).trans hjk

theorem boundFrom_congr (hsorted : ∀ i j, i ≤ j → j < count → f i ≤ f j) (hk : k ≤ k') (hk' : k' < count)
    (hoffset : (f k).offsetInCompressedFile = (f k').offsetInCompressedFile) :
    boundFrom f count limit k = boundFrom f count limit k' := by
  have hfirst : firstMark (fun mark => (f k).offsetInCompressedFile < (f mark).offsetInCompressedFile) (k + 1) count =
      firstMark (fun mark => (f k').offsetInCompressedFile < (f mark).offsetInCompressedFile) (k' + 1) count := by
    rw [← hoffset]
    obtain ⟨hle, hstop, hnone, hfound⟩ := @firstMark_spec
      (fun mark => (f k).offsetInCompressedFile < (f mark).offsetInCompressedFile) (k' + 1) count (by omega)
    refine firstMark_eq (by omega) hstop (fun i hi hlt => ?_) hfound
    rcases Nat.lt_or_ge k' i with hafter | hbefore
    · exact hnone i hafter hlt
    -- between the two marks nothing leaves the block
    · have hbetween := offset_le (hsorted i k' hbefore hk')
      exact decide_eq_false (by omega)
  unfold boundFrom
  rw [hfirst]

end BoundFrom

/-! ## Blocks of the file -/

namespace CompressedFile

variable {file : CompressedFile} {start offset : ℕ}

theorem IsBoundary.le (h : file.IsBoundary offset) : offset ≤ file.fileSize := by
  rcases h with hmem | rfl
  · exact (file.lt_fileSize offset hmem).le
  · exact le_rfl

theorem blockEnd_le (hoffset : file.IsBoundary offset) (h : start < offset) : file.blockEnd start ≤ offset := by
  unfold blockEnd
  cases hfind : file.starts.find? fun next => start < next with
  | none =>
    rcases hoffset with hmem | rfl
    · have hnone := List.find?_eq_none.1 hfind offset hmem
      exact absurd (decide_eq_true h) hnone
    · exact le_rfl
  | some next =>
    rw [Option.getD_some]
    rcases hoffset with hmem | rfl
    · obtain ⟨-, before, after, hstarts, hbefore⟩ := List.find?_eq_some_iff_append.1 hfind
      have hsorted := file.ascending
      rw [hstarts] at hsorted hmem
      rcases List.mem_append.1 hmem with hin | hin
      · have hcontra := hbefore offset hin
        rw [decide_eq_true h] at hcontra
        exact absurd hcontra (by decide)
      · rcases List.mem_cons.1 hin with rfl | hin
        · exact le_rfl
        · exact ((List.pairwise_cons.1 (List.pairwise_append.1 hsorted).2.1).1 offset hin).le
    · exact (file.lt_fileSize next (List.mem_of_find?_eq_some hfind)).le

theorem isBoundary_zero (file : CompressedFile) : file.IsBoundary 0 :=
  (Nat.eq_zero_or_pos file.fileSize).elim (fun h => Or.inr h.symm) fun h => Or.inl (file.zero_mem h)

theorem ValidMark.isBoundary (h : file.ValidMark m) : file.IsBoundary m.offsetInCompressedFile := by
  rcases h with ⟨hmem, -⟩ | rfl
  · exact Or.inl hmem
  · exact Or.inr rfl

theorem ValidMark.le (h : file.ValidMark m) : m ≤ ⟨file.fileSize, 0⟩ := by
  rcases h with ⟨hmem, -⟩ | rfl
  · exact (lt_of_offset_lt (file.lt_fileSize _ hmem)).le
  · exact le_rfl

end CompressedFile

theorem isBoundary_boundFrom {file : CompressedFile} {f : ℕ → MarkInCompressedFile} {count k : ℕ}
    {limit : MarkInCompressedFile} (hvalid : ∀ i < count, file.ValidMark (f i))
    (hlimit : file.IsBoundary limit.offsetInCompressedFile) (hk : k < count) :
    file.IsBoundary (boundFrom f count limit k) := by
  rcases @boundFrom_cases f _ _ limit hk with heq | ⟨j, -, hj, -, -, heq⟩
  · rw [heq]
    exact hlimit
  · rw [heq]
    exact (hvalid j hj).isBoundary

/-! ## Limiting the reading -/

section Limit

variable {file : CompressedFile} {marksCount : ℕ} {rightOffset : ℕ → ℕ} {needs : ℕ → ℕ → Prop}

/-- The last right offset and the bound on the buffer agree. -/
inductive ReadLimit.Consistent : ReadLimit → Prop
  | unset : Consistent ⟨none, .unset⟩
  | toEnd : Consistent ⟨some 0, .toEnd⟩
  | position (offset : ℕ) : 0 < offset → Consistent ⟨some offset, .position offset⟩

theorem ReadUntil.Reaches.mono {readUntil : ReadUntil} {offset offset' : ℕ} (h : readUntil.Reaches offset) (hle : offset' ≤ offset) :
    readUntil.Reaches offset' := by
  cases readUntil with
  | unset => exact h
  | toEnd => trivial
  | position stop => exact hle.trans h

namespace ReadLimit.Consistent

variable {limit : ReadLimit} {offset reached : ℕ}

theorem adjust (h : limit.Consistent) : (limit.adjustRightMark offset).Consistent := by
  unfold adjustRightMark
  split
  · split
    · exact h
    · exact toEnd
  · split
    · exact h
    · exact position offset (by omega)

theorem reaches_adjust (h : limit.Consistent) : (limit.adjustRightMark offset).readUntil.Reaches offset := by
  unfold adjustRightMark
  split
  · split
    · rename_i hlast
      cases h with
      | unset => cases hlast
      | toEnd => trivial
      | position last hpos => exact absurd (Option.some.inj hlast) (by omega)
    · trivial
  · split
    · rename_i hoffset hany
      cases h with
      | unset => cases hany
      | toEnd => exact absurd (of_decide_eq_true hany) (by omega)
      | position last hpos =>
        have hle : offset ≤ last := of_decide_eq_true hany
        exact hle
    · exact le_refl offset

theorem reaches_of_reaches (h : limit.Consistent) (hlast : limit.lastRightOffset ≠ some 0)
    (hreached : limit.readUntil.Reaches reached) : (limit.adjustRightMark offset).readUntil.Reaches reached := by
  cases h with
  | unset => cases hreached
  | toEnd => exact absurd rfl hlast
  | position last hpos =>
    unfold adjustRightMark
    split
    · trivial
    · split
      · exact hreached
      · rename_i hany
        have hlt : last < offset := by
          simpa using hany
        exact le_trans hreached hlt.le

end ReadLimit.Consistent

theorem limitAfter_append (rightMarks : List ℕ) (r : ℕ) : limitAfter rightOffset (rightMarks ++ [r]) =
    (limitAfter rightOffset rightMarks).adjustRightMark (rightOffset r) := by
  unfold limitAfter
  rw [List.map_append, List.foldl_append]
  rfl

theorem consistent_limitAfter (rightMarks : List ℕ) : (limitAfter rightOffset rightMarks).Consistent := by
  induction rightMarks using List.reverseRecOn with
  | nil => exact .unset
  | append_singleton rightMarks r ih =>
    rw [limitAfter_append]
    exact ih.adjust

theorem lastRightOffset_limitAfter_ne {rightMarks : List ℕ} (hpos : ∀ r ∈ rightMarks, 0 < rightOffset r) :
    (limitAfter rightOffset rightMarks).lastRightOffset ≠ some 0 := by
  induction rightMarks using List.reverseRecOn with
  | nil => exact fun h => by cases h
  | append_singleton rightMarks r ih =>
    have hr := hpos r (List.mem_append_right _ (List.mem_singleton_self r))
    have hrest := ih fun r' hr' => hpos r' (List.mem_append_left _ hr')
    rw [limitAfter_append]
    unfold ReadLimit.adjustRightMark
    rw [if_neg (by omega)]
    split
    · exact hrest
    · exact fun h => absurd (Option.some.inj h) (by omega)

theorem reaches_limitAfter {rightMarks : List ℕ} (hpos : ∀ r ∈ rightMarks, 0 < rightOffset r) :
    ∀ r ∈ rightMarks, (limitAfter rightOffset rightMarks).readUntil.Reaches (rightOffset r) := by
  induction rightMarks using List.reverseRecOn with
  | nil => exact fun r hr => absurd hr (by simp)
  | append_singleton rightMarks r ih =>
    have hbefore : ∀ r' ∈ rightMarks, 0 < rightOffset r' := fun r' hr' => hpos r' (List.mem_append_left _ hr')
    have hconsistent := @consistent_limitAfter rightOffset rightMarks
    have hlast := lastRightOffset_limitAfter_ne hbefore
    intro r' hr'
    rw [limitAfter_append]
    rcases List.mem_append.1 hr' with hr' | hr'
    · exact hconsistent.reaches_of_reaches hlast (ih hbefore r' hr')
    · rw [List.mem_singleton.1 hr']
      exact hconsistent.reaches_adjust

/-- **The limit cuts nothing** when the bound does not. -/
theorem RightBound.neverCuts (h : RightBound file marksCount rightOffset needs)
    (hpos : ∀ r, 0 < r → r ≤ marksCount → 0 < file.fileSize → 0 < rightOffset r)
    (hneeds : ∀ r start, needs r start → start ∈ file.starts) : NeverCuts file marksCount rightOffset needs where
  last := by
    intro rightMarks r hr start hstart
    rw [limitAfter_append]
    exact (consistent_limitAfter rightMarks).reaches_adjust.mono (h.covers r hr start hstart)
  all := by
    intro rightMarks hall r hr start hstart
    have hfile : 0 < file.fileSize := (Nat.zero_le start).trans_lt (file.lt_fileSize start (hneeds r start hstart))
    exact (reaches_limitAfter (fun r' hr' => hpos r' (hall r' hr').1 (hall r' hr').2 hfile) r hr).mono
      (h.covers r (hall r hr).2 start hstart)

end Limit

/-! ## One column -/

theorem exists_addRangeBytes (bytes : ℕ × ℕ) {rightOffset leftOffset : ℕ} (h : leftOffset ≤ rightOffset) :
    ∃ bytes', addRangeBytes bytes rightOffset leftOffset = some bytes' := by
  unfold addRangeBytes
  rw [if_pos h]
  exact ⟨_, rfl⟩

namespace ReaderStream

variable {s : ReaderStream} {file : CompressedFile} {r r' e e' start : ℕ}

/-- What the bound is at the mark that it stops at. -/
def offsetAt (s : ReaderStream) (e : ℕ) : ℕ :=
  if (s.getMark e 0).offsetInDecompressedBlock = 0 ∧ s.getMark e 0 ≠ s.getMark (e - 1) 0 then
    (s.getMark e 0).offsetInCompressedFile
  else boundFrom (fun i => s.getMark i 0) s.marksCount s.endMark e

namespace SingleColumnLayout

theorem le_endMark (h : s.SingleColumnLayout file) {i : ℕ} (hi : i < s.marksCount) : s.getMark i 0 ≤ s.endMark := by
  unfold endMark
  rw [h.fileSize_eq]
  exact (h.valid i hi).le

/-- The binary search for the next different offset, to the end of the file when there is none. -/
theorem search_eq (h : s.SingleColumnLayout file) (he : e < s.marksCount) :
    (let next := firstMark (fun mark => (s.getMark e 0).offsetInCompressedFile < (s.getMark mark 0).offsetInCompressedFile)
        e s.marksCount
      if next < s.marksCount then (s.getMark next 0).offsetInCompressedFile else s.fileSize) =
      boundFrom (fun i => s.getMark i 0) s.marksCount s.endMark e := by
  have hfirst : firstMark (fun mark => (s.getMark e 0).offsetInCompressedFile < (s.getMark mark 0).offsetInCompressedFile)
      e s.marksCount = firstMark (fun mark => (s.getMark e 0).offsetInCompressedFile < (s.getMark mark 0).offsetInCompressedFile)
      (e + 1) s.marksCount := by
    obtain ⟨hle, hstop, hnone, hfound⟩ := @firstMark_spec
      (fun mark => (s.getMark e 0).offsetInCompressedFile < (s.getMark mark 0).offsetInCompressedFile) (e + 1) s.marksCount he
    refine firstMark_eq (by omega) hstop (fun i hi hlt => ?_) hfound
    rcases Nat.eq_or_lt_of_le hi with rfl | hafter
    · exact decide_eq_false (lt_irrefl _)
    · exact hnone i hafter hlt
  unfold boundFrom
  dsimp only
  rw [hfirst]
  split
  · rename_i hlt
    split
    · rfl
    · rename_i hlimit
      -- only the end of the file is not before it
      have heq := le_antisymm (h.le_endMark hlt) (not_lt.1 fun hbefore => hlimit ⟨hlt, hbefore⟩)
      rw [heq]
  · rename_i hlt
    rw [if_neg fun hand => hlt hand.1]
    rfl

theorem dictionaryRightMark_spec (s : ReaderStream) (hlt : r < s.marksCount) :
    r ≤ s.dictionaryRightMark r ∧ s.dictionaryRightMark r ≤ s.marksCount ∧
      (s.isLowCardinalityDictionary → (∀ i, r ≤ i → i < s.dictionaryRightMark r → ¬s.getMark r 0 < s.getMark i 0) ∧
        (s.dictionaryRightMark r < s.marksCount → s.getMark r 0 < s.getMark (s.dictionaryRightMark r) 0)) := by
  unfold dictionaryRightMark
  split
  · obtain ⟨hle, hstop, hnone, hfound⟩ := @firstMark_spec (fun mark => s.getMark r 0 < s.getMark mark 0) r s.marksCount hlt.le
    exact ⟨hle, hstop, fun _ => ⟨fun i hi hbefore => of_decide_eq_false (hnone i hi hbefore),
      fun hbefore => of_decide_eq_true (hfound hbefore)⟩⟩
  · rename_i hlow
    exact ⟨le_rfl, hlt.le, fun h => absurd h hlow⟩

theorem dictionaryRightMark_mono (h : s.SingleColumnLayout file) (hle : r ≤ r') (hlt : r' < s.marksCount) :
    s.dictionaryRightMark r ≤ s.dictionaryRightMark r' := by
  obtain ⟨-, hstop, hlow⟩ := dictionaryRightMark_spec s (hle.trans_lt hlt)
  obtain ⟨hle', -, hlow'⟩ := dictionaryRightMark_spec s hlt
  by_cases hdictionary : s.isLowCardinalityDictionary = true
  · by_contra hback
    refine (hlow hdictionary).1 _ (hle.trans hle') (by omega) ?_
    exact (h.sorted r r' hle hlt).trans_lt ((hlow' hdictionary).2 (by omega))
  · unfold dictionaryRightMark
    rw [if_neg hdictionary, if_neg hdictionary]
    exact hle

theorem getRightOffset_eq (h : s.SingleColumnLayout file) (hr : 0 < r) (hlt : r < s.marksCount) :
    s.getRightOffset r = if s.dictionaryRightMark r < s.marksCount ∧ ¬s.isMetadataFile then s.offsetAt (s.dictionaryRightMark r)
      else s.fileSize := by
  obtain ⟨-, hstop, -⟩ := dictionaryRightMark_spec s hlt
  unfold getRightOffset
  rw [if_neg (by omega), if_neg (by omega), if_neg (by omega)]
  dsimp only
  by_cases hend : s.dictionaryRightMark r = s.marksCount
  · rw [if_pos hend, if_neg (by omega)]
  · rw [if_neg hend]
    by_cases hmetadata : s.isMetadataFile = true
    · rw [if_pos hmetadata, if_neg (fun hand => hand.2 hmetadata)]
    · have hmark : s.dictionaryRightMark r < s.marksCount := by omega
      have hright : (if s.dictionaryRightMark r < s.marksCount ∧ ¬s.isMetadataFile = true then s.offsetAt (s.dictionaryRightMark r)
          else s.fileSize) = s.offsetAt (s.dictionaryRightMark r) := if_pos ⟨hmark, hmetadata⟩
      rw [if_neg hmetadata, hright]
      have hsearch := h.search_eq hmark
      unfold offsetAt
      split
      · rfl
      · exact hsearch

theorem le_offsetAt (h : s.SingleColumnLayout file) (he : e < s.marksCount) :
    (s.getMark e 0).offsetInCompressedFile ≤ s.offsetAt e := by
  unfold offsetAt
  split
  · exact le_rfl
  · exact @le_boundFrom (fun i => s.getMark i 0) _ _ _ he (h.le_endMark he)

theorem lt_offsetAt (h : s.SingleColumnLayout file) (he : e < s.marksCount)
    (hm : m < s.getMark e 0) : m.offsetInCompressedFile < s.offsetAt e := by
  unfold offsetAt
  split
  · rename_i hgood
    exact offset_lt hm hgood.1
  · exact lt_boundFrom (f := fun i => s.getMark i 0) he (h.le_endMark he) rfl hm

theorem offsetAt_mono (h : s.SingleColumnLayout file) (hle : e ≤ e') (he' : e' < s.marksCount) :
    s.offsetAt e ≤ s.offsetAt e' := by
  rcases Nat.eq_or_lt_of_le hle with rfl | hlt
  · exact le_rfl
  have hmark := offset_le (h.sorted e e' hle he')
  have hafter := h.le_offsetAt he'
  by_cases hgood : (s.getMark e 0).offsetInDecompressedBlock = 0 ∧ s.getMark e 0 ≠ s.getMark (e - 1) 0
  · have heq : s.offsetAt e = (s.getMark e 0).offsetInCompressedFile := by
      unfold offsetAt
      rw [if_pos hgood]
    omega
  have heq : s.offsetAt e = boundFrom (fun i => s.getMark i 0) s.marksCount s.endMark e := by
    unfold offsetAt
    rw [if_neg hgood]
  rw [heq]
  rcases Nat.eq_or_lt_of_le hmark with hsame | hbehind
  -- in one block the later mark is not the first of its position
  · have hgood' : ¬((s.getMark e' 0).offsetInDecompressedBlock = 0 ∧ s.getMark e' 0 ≠ s.getMark (e' - 1) 0) := by
      rintro ⟨hzero, hne⟩
      have hfirst := eq_of_offset_eq (h.sorted e e' hle he') hsame hzero
      have hbefore := h.sorted e (e' - 1) (by omega) (by omega)
      have hlast := h.sorted (e' - 1) e' (by omega) he'
      exact hne (le_antisymm (hfirst ▸ hbefore) hlast)
    have heq' : s.offsetAt e' = boundFrom (fun i => s.getMark i 0) s.marksCount s.endMark e' := by
      unfold offsetAt
      rw [if_neg hgood']
    rw [heq', @boundFrom_congr (fun i => s.getMark i 0) _ _ _ _ h.sorted hle he' hsame]
  · exact (@boundFrom_le (fun i => s.getMark i 0) _ _ _ _ h.sorted hlt he' hbehind).trans hafter

theorem isBoundary_offsetAt (h : s.SingleColumnLayout file) (he : e < s.marksCount) : file.IsBoundary (s.offsetAt e) := by
  unfold offsetAt
  split
  · exact (h.valid e he).isBoundary
  · exact @isBoundary_boundFrom file (fun i => s.getMark i 0) _ _ _ h.valid (Or.inr h.fileSize_eq) he

theorem offsetAt_le (h : s.SingleColumnLayout file) (he : e < s.marksCount) : s.offsetAt e ≤ s.fileSize := by
  rw [h.fileSize_eq]
  exact (h.isBoundary_offsetAt he).le

/-- The bound of a positive right mark: the end of the file, or what it is at the mark it stops at. -/
theorem getRightOffset_cases (h : s.SingleColumnLayout file) (hpos : 0 < r) (hr : r ≤ s.marksCount) :
    s.getRightOffset r = s.fileSize ∨ r < s.marksCount ∧ s.dictionaryRightMark r < s.marksCount ∧
      ¬s.isMetadataFile = true ∧ s.getRightOffset r = s.offsetAt (s.dictionaryRightMark r) := by
  rcases Nat.eq_or_lt_of_le hr with rfl | hlt
  · left
    unfold getRightOffset
    rw [if_neg (by omega), if_neg (by omega), if_pos rfl]
  · rw [h.getRightOffset_eq hpos hlt]
    split
    · rename_i hmark
      exact Or.inr ⟨hlt, hmark.1, hmark.2, rfl⟩
    · exact Or.inl rfl

theorem getRightOffset_le (h : s.SingleColumnLayout file) (hpos : 0 < r) (hr : r ≤ s.marksCount) :
    s.getRightOffset r ≤ s.fileSize := by
  rcases h.getRightOffset_cases hpos hr with heq | ⟨-, hmark, -, heq⟩
  · exact heq.le
  · rw [heq]
    exact h.offsetAt_le hmark

theorem getRightOffset_zero (s : ReaderStream) (hcount : 0 < s.marksCount) :
    s.getRightOffset 0 = (s.getMark 0 0).offsetInCompressedFile := by
  unfold getRightOffset
  rw [if_neg (by omega), if_pos rfl]

theorem le_getRightOffset (h : s.SingleColumnLayout file) {i : ℕ} (hi : i < r) (hr : r ≤ s.marksCount) :
    (s.getMark i 0).offsetInCompressedFile ≤ s.getRightOffset r := by
  rcases h.getRightOffset_cases (by omega) hr with heq | ⟨hlt, hmark, -, heq⟩
  · rw [heq]
    exact offset_le (h.le_endMark (show i < s.marksCount by omega))
  · obtain ⟨hle, -, -⟩ := dictionaryRightMark_spec s hlt
    rw [heq]
    exact (offset_le (h.sorted i _ (by omega) hmark)).trans (h.le_offsetAt hmark)

theorem getRightOffset_mono (h : s.SingleColumnLayout file) (hle : r ≤ r') (hr' : r' ≤ s.marksCount) :
    s.getRightOffset r ≤ s.getRightOffset r' := by
  rcases Nat.eq_zero_or_pos r with rfl | hpos
  · rcases Nat.eq_zero_or_pos r' with rfl | hpos'
    · exact le_rfl
    · rw [getRightOffset_zero s (by omega)]
      exact h.le_getRightOffset hpos' hr'
  rcases h.getRightOffset_cases (show 0 < r' by omega) hr' with heq' | ⟨hlt', hmark', hmetadata, heq'⟩
  · rw [heq']
    exact h.getRightOffset_le hpos (hle.trans hr')
  · have hmono := h.dictionaryRightMark_mono hle hlt'
    have heq : s.getRightOffset r = s.offsetAt (s.dictionaryRightMark r) := by
      rw [h.getRightOffset_eq hpos (hle.trans_lt hlt'), if_pos ⟨hmono.trans_lt hmark', hmetadata⟩]
    rw [heq, heq']
    exact h.offsetAt_mono hmono hmark'

theorem lt_of_needs (h : s.SingleColumnLayout file) (hlt : r < s.marksCount) (hmark : s.dictionaryRightMark r < s.marksCount)
    (hneeds : s.Needs file r start) :
    ∃ offset, (⟨start, offset⟩ : MarkInCompressedFile) < s.getMark (s.dictionaryRightMark r) 0 := by
  obtain ⟨hle, -, hlow⟩ := dictionaryRightMark_spec s hlt
  rcases hneeds with ⟨i, hi, -, offset, -, -, hbefore⟩ | ⟨hdictionary, -, i, hi, hcount, -, offset, -, -, hbefore⟩
  · refine ⟨offset, hbefore.trans_le ?_⟩
    unfold markEnd
    rw [if_pos (by omega)]
    exact h.sorted (i + 1) _ (by omega) hmark
  · refine ⟨offset, hbefore.trans_le ?_⟩
    -- the stop mark differs from mark `i`, which is not behind the right mark
    have hdifferent : s.getMark i 0 < s.getMark (s.dictionaryRightMark r) 0 :=
      (h.sorted i r hi hlt).trans_lt ((hlow hdictionary).2 hmark)
    obtain ⟨-, hstop, hnone, -⟩ := @firstMark_spec (fun mark => s.getMark i 0 < s.getMark mark 0) i s.marksCount hcount.le
    have hnext : firstMark (fun mark => s.getMark i 0 < s.getMark mark 0) i s.marksCount ≤ s.dictionaryRightMark r := by
      by_contra hback
      exact of_decide_eq_false (hnone _ (hi.trans hle) (by omega)) hdifferent
    unfold dictionaryEnd
    dsimp only
    rw [if_pos (hnext.trans_lt hmark)]
    exact h.sorted _ _ hnext hmark

theorem mem_starts_of_needs (hneeds : s.Needs file r start) : start ∈ file.starts := by
  rcases hneeds with ⟨i, -, hmem, -⟩ | ⟨-, -, i, -, -, hmem, -⟩
  · exact hmem
  · exact hmem

theorem isBoundary_getRightOffset (h : s.SingleColumnLayout file) (hr : r ≤ s.marksCount) :
    file.IsBoundary (s.getRightOffset r) := by
  rcases Nat.eq_zero_or_pos r with rfl | hpos
  · rcases Nat.eq_zero_or_pos s.marksCount with hcount | hcount
    · unfold getRightOffset
      rw [if_pos hcount]
      exact file.isBoundary_zero
    · rw [getRightOffset_zero s hcount]
      exact (h.valid 0 hcount).isBoundary
  · rcases h.getRightOffset_cases hpos hr with heq | ⟨-, hmark, -, heq⟩
    · rw [heq]
      exact Or.inr h.fileSize_eq
    · rw [heq]
      exact h.isBoundary_offsetAt hmark

/-- **The right bound of one column cuts nothing.** -/
theorem rightBound (h : s.SingleColumnLayout file) : RightBound file s.marksCount s.getRightOffset (s.Needs file) where
  covers := by
    intro r hr start hneeds
    refine CompressedFile.blockEnd_le (h.isBoundary_getRightOffset hr) ?_
    have hpos : 0 < r := by
      rcases hneeds with ⟨i, hi, -⟩ | ⟨-, hpos, -⟩
      · omega
      · exact hpos
    rcases h.getRightOffset_cases hpos hr with heq | ⟨hlt, hmark, -, heq⟩
    · rw [heq, h.fileSize_eq]
      exact file.lt_fileSize start (mem_starts_of_needs hneeds)
    · obtain ⟨offset, hbefore⟩ := h.lt_of_needs hlt hmark hneeds
      rw [heq]
      exact h.lt_offsetAt hmark hbefore
  boundary _ hr := h.isBoundary_getRightOffset hr
  mono _ _ hle hr' := h.getRightOffset_mono hle hr'

/-- A right mark other than 0 has a positive bound: what is before its block is behind the start of the
file. -/
theorem getRightOffset_pos (h : s.SingleColumnLayout file) (hpos : 0 < r) (hr : r ≤ s.marksCount) (hfile : 0 < file.fileSize) :
    0 < s.getRightOffset r := by
  rcases h.getRightOffset_cases hpos hr with heq | ⟨hlt, hmark, -, heq⟩
  · rw [heq, h.fileSize_eq]
    exact hfile
  obtain ⟨hle, -, -⟩ := dictionaryRightMark_spec s hlt
  rw [heq]
  unfold offsetAt
  split
  · rename_i hgood
    by_contra hzero
    have hbefore := h.sorted (s.dictionaryRightMark r - 1) _ (by omega) hmark
    have hoffset := offset_le hbefore
    exact hgood.2 (eq_of_offset_eq hbefore (by omega) hgood.1).symm
  · rcases @boundFrom_cases (fun i => s.getMark i 0) s.marksCount _ s.endMark hmark with hend | ⟨j, -, -, hbehind, -, hj⟩
    · rw [hend]
      exact hfile.trans_eq h.fileSize_eq.symm
    · rw [hj]
      omega

theorem estimateMarkRangeBytes_isSome (h : s.SingleColumnLayout file) {markRanges : List MarkRange}
    (hranges : SortedRanges s.marksCount markRanges) : (s.estimateMarkRangeBytes markRanges).isSome = true := by
  obtain ⟨bytes, hbytes, -⟩ := @Loop.exists_foldlM_pure (ℕ × ℕ) MarkRange Option _ _
    (fun bytes range => addRangeBytes bytes (s.getRightOffset range.endMark)
      (if range.beginMark < s.marksCount then (s.getMark range.beginMark 0).offsetInCompressedFile else 0))
    (fun rest _ => ∀ range ∈ rest, range.beginMark < range.endMark ∧ range.endMark ≤ s.marksCount)
    (fun range rest bytes hrest => by
      obtain ⟨hnonempty, hend⟩ := hrest range List.mem_cons_self
      rw [if_pos (show range.beginMark < s.marksCount by omega)]
      obtain ⟨bytes', hbytes⟩ := exists_addRangeBytes bytes (h.le_getRightOffset hnonempty hend)
      exact ⟨bytes', hbytes, fun range' hrange' => hrest range' (List.mem_cons_of_mem _ hrange')⟩)
    markRanges (0, 0) hranges.1
  unfold estimateMarkRangeBytes
  rw [hbytes]
  rfl

end SingleColumnLayout

/-! ## A column of several -/

variable {i c : ℕ}

theorem getStartOfNextStripeMark_one (s : ReaderStream) (hcolumns : s.numColumns = 1) :
    s.getStartOfNextStripeMark i c = s.endMark := by
  unfold getStartOfNextStripeMark
  rw [if_pos hcolumns]

theorem rightOffsetFrom_eq (s : ReaderStream) (k c : ℕ) :
    s.rightOffsetFrom k c = boundFrom (fun i => s.getMark i c) s.marksCount (s.getStartOfNextStripeMark k c) k := rfl

theorem rightMarkIncluded_spec (hpos : 0 < r) (hr : r ≤ s.marksCount) :
    r - 1 ≤ s.rightMarkIncluded r c ∧ s.rightMarkIncluded r c ≤ r ∧ s.rightMarkIncluded r c < s.marksCount ∧
      (s.rightMarkIncluded r c = r - 1 → r < s.marksCount → (s.getMark r c).offsetInDecompressedBlock = 0) := by
  unfold rightMarkIncluded
  split
  · exact ⟨by omega, by omega, by omega, fun heq => by omega⟩
  · rename_i hinside
    exact ⟨le_rfl, by omega, by omega, fun _ hlt => by
      by_contra hzero
      exact hinside ⟨by omega, hzero⟩⟩

theorem rightMarkIncluded_mono (hpos : 0 < r) (hle : r ≤ r') (hr' : r' ≤ s.marksCount) :
    s.rightMarkIncluded r c ≤ s.rightMarkIncluded r' c := by
  rcases Nat.eq_or_lt_of_le hle with rfl | hlt
  · exact le_rfl
  · have hfirst := @rightMarkIncluded_spec s r c hpos (by omega)
    have hsecond := @rightMarkIncluded_spec s r' c (by omega) hr'
    omega

theorem getRightOffsetOneColumn_pos_eq (hpos : 0 < r) (hr : r ≤ s.marksCount) :
    s.getRightOffsetOneColumn r c = s.rightOffsetFrom (s.rightMarkIncluded r c) c := by
  unfold getRightOffsetOneColumn
  rw [if_neg (by omega), if_neg (by omega)]

theorem getRightOffsetOneColumn_zero (hcount : 0 < s.marksCount) :
    s.getRightOffsetOneColumn 0 c = (s.getMark 0 c).offsetInCompressedFile := by
  unfold getRightOffsetOneColumn
  rw [if_neg (by omega), if_pos rfl]

namespace CompactLayout

variable (layout : s.CompactLayout file) {j k k' : ℕ}

include layout

theorem getMark_lt_endMark (hi : i < layout.dataRows) (hc : c < s.numColumns) : s.getMark i c < s.endMark := by
  refine lt_of_offset_lt ?_
  change (s.getMark i c).offsetInCompressedFile < s.fileSize
  rw [layout.fileSize_eq]
  exact file.lt_fileSize _ (layout.mem_starts i hi c hc)

theorem validMark (hi : i < s.marksCount) (hc : c < s.numColumns) : file.ValidMark (s.getMark i c) := by
  rcases Nat.lt_or_ge i layout.dataRows with hdata | hfinal
  · exact Or.inl ⟨layout.mem_starts i hdata c hc, layout.inBlock i hdata c hc⟩
  · right
    rw [layout.final i hfinal hi c hc, endMark, layout.fileSize_eq]

theorem getMark_le_endMark (hi : i < s.marksCount) (hc : c < s.numColumns) : s.getMark i c ≤ s.endMark := by
  rw [endMark, layout.fileSize_eq]
  exact (layout.validMark hi hc).le

theorem getMark_sorted (hc : c < s.numColumns) : ∀ i j, i ≤ j → j < s.marksCount → s.getMark i c ≤ s.getMark j c := by
  intro i j hij hj
  rcases Nat.lt_or_ge j layout.dataRows with hdata | hfinal
  · rcases Nat.lt_or_ge j (layout.stripeEnd i) with hsame | hlater
    · exact layout.sorted i (by omega) j hij hsame c hc
    · exact (layout.stripe_lt i (by omega) j hlater hdata c hc c hc).le
  · rw [layout.final j hfinal hj c hc]
    exact layout.getMark_le_endMark (by omega) hc

theorem stripeEnd_le_stripeBegin (hi : i < layout.dataRows) (hj : j < layout.dataRows) (hlater : layout.stripeEnd i ≤ j) :
    layout.stripeEnd i ≤ layout.stripeBegin j := by
  obtain ⟨hbegin_i, hend_i, -⟩ := layout.stripe i hi
  obtain ⟨hbegin_j, hend_j, -⟩ := layout.stripe j hj
  by_contra hback
  rcases Nat.lt_or_ge (layout.stripeBegin j) i with hbefore | hafter
  · -- then `i` is in the stripe of `j`
    have hsame := (layout.stripe_eq j hj i hbefore.le (by omega)).2
    omega
  · have hsame := (layout.stripe_eq i hi (layout.stripeBegin j) (by omega) (by omega)).2
    have hsame' := (layout.stripe_eq j hj (layout.stripeBegin j) le_rfl (by omega)).2
    omega

theorem stripeEnd_pred_le (hi : i < layout.dataRows) (hbegin : 0 < layout.stripeBegin i) :
    layout.stripeEnd (layout.stripeBegin i - 1) ≤ i := by
  obtain ⟨hbegin_i, hend_i, -⟩ := layout.stripe i hi
  have hpred : layout.stripeBegin i - 1 < layout.dataRows := by omega
  obtain ⟨hbegin_pred, hend_pred, -⟩ := layout.stripe _ hpred
  by_contra hback
  have hsame := (layout.stripe_eq _ hpred i (by omega) (by omega)).1
  omega

theorem getMark_lt_nextColumn (hi : i < layout.dataRows) (hc : c + 1 < s.numColumns) :
    s.getMark i c < s.getMark (layout.stripeBegin i) (c + 1) := by
  obtain ⟨hbegin, hend, -⟩ := layout.stripe i hi
  exact layout.column_lt i hi (layout.stripeBegin i) le_rfl (by omega) c (c + 1) (by omega) hc

theorem getMark_lt_nextStripe (hi : i < layout.dataRows) (hend : layout.stripeEnd i < s.marksCount) (hc : c < s.numColumns) :
    s.getMark i c < s.getMark (layout.stripeEnd i) 0 := by
  rcases Nat.lt_or_ge (layout.stripeEnd i) layout.dataRows with hdata | hfinal
  · exact layout.stripe_lt i hi _ le_rfl hdata c hc 0 (by omega)
  · rw [layout.final _ hfinal hend 0 (by omega)]
    exact layout.getMark_lt_endMark hi hc

theorem getMark_lt_columnEnd (hi : i < layout.dataRows) (hc : c < s.numColumns) : s.getMark i c < layout.columnEnd i c := by
  unfold columnEnd
  split
  · rename_i hnext
    exact layout.getMark_lt_nextColumn hi hnext
  · split
    · rename_i hend
      exact layout.getMark_lt_nextStripe hi hend hc
    · exact layout.getMark_lt_endMark hi hc

/-- **The start of the next stripe**, or of the next column, is where the column ends. -/
theorem getStartOfNextStripeMark_eq (hi : i < layout.dataRows) (hc : c < s.numColumns) (hcolumns : s.numColumns ≠ 1) :
    s.getStartOfNextStripeMark i c = layout.columnEnd i c := by
  obtain ⟨hbegin, hend, hend_le⟩ := layout.stripe i hi
  have hcount := layout.dataRows_le
  unfold getStartOfNextStripeMark columnEnd
  dsimp only
  rw [if_neg hcolumns]
  by_cases hlast : c + 1 = s.numColumns
  · have hsearch : firstMark (fun mark => ¬s.getMark mark 0 ≤ s.getMark i c) (i + 1) s.marksCount = layout.stripeEnd i := by
      refine firstMark_eq hend (by omega) (fun k hk hlt => ?_) fun hlt => ?_
      -- the first column of the stripe is before the last one
      · have hsame := layout.stripe_eq i hi k (by omega) hlt
        have hbefore := layout.column_lt k (by omega) i (by omega) (by omega) 0 c (by omega) hc
        exact decide_eq_false (not_not_intro hbefore.le)
      · exact decide_eq_true (not_le_of_gt (layout.getMark_lt_nextStripe hi hlt hc))
    rw [if_pos hlast, hsearch, if_neg (show ¬c + 1 < s.numColumns by omega)]
    by_cases hcount_eq : layout.stripeEnd i = s.marksCount
    · rw [if_pos hcount_eq, if_neg (by omega)]
    · rw [if_neg hcount_eq, if_pos (by omega)]
  · have hsearch : lastMarkEnd (fun mark => s.getMark i c ≤ s.getMark mark (c + 1)) (i + 1) = layout.stripeBegin i := by
      refine lastMarkEnd_eq (by omega) (fun k hk hlt => ?_) fun hpos => ?_
      · exact decide_eq_true (layout.column_lt i hi k hk (by omega) c (c + 1) (by omega) (by omega)).le
      -- the stripe before is behind nothing of this one
      · have hbefore := layout.stripe_lt (layout.stripeBegin i - 1) (by omega) i (layout.stripeEnd_pred_le hi hpos) hi
          (c + 1) (by omega) c hc
        exact decide_eq_false (not_le_of_gt hbefore)
    rw [if_neg hlast, hsearch, if_pos (by omega)]

theorem getStartOfNextStripeMark_final (hfinal : layout.dataRows ≤ i) (hi : i < s.marksCount) (hc : c < s.numColumns) :
    s.getStartOfNextStripeMark i c = s.endMark := by
  unfold getStartOfNextStripeMark
  dsimp only
  rw [layout.final i hfinal hi c hc]
  by_cases hcolumns : s.numColumns = 1
  · rw [if_pos hcolumns]
  rw [if_neg hcolumns]
  by_cases hlast : c + 1 = s.numColumns
  · have hsearch : firstMark (fun mark => ¬s.getMark mark 0 ≤ s.endMark) (i + 1) s.marksCount = s.marksCount := by
      refine firstMark_eq hi le_rfl (fun k hk hlt => ?_) fun hlt => absurd hlt (lt_irrefl _)
      exact decide_eq_false (not_not_intro (layout.getMark_le_endMark hlt (by omega)))
    rw [if_pos hlast, hsearch, if_pos rfl]
  · have hsearch : lastMarkEnd (fun mark => s.endMark ≤ s.getMark mark (c + 1)) (i + 1) = layout.dataRows := by
      refine lastMarkEnd_eq (by omega) (fun k hk hlt => ?_) fun hpos => ?_
      · rw [layout.final k hk (by omega) (c + 1) (by omega)]
        exact decide_eq_true le_rfl
      · exact decide_eq_false (not_le_of_gt (layout.getMark_lt_endMark (by omega) (by omega)))
    rw [if_neg hlast, hsearch, layout.final _ le_rfl (by omega) (c + 1) (by omega)]

theorem columnEnd_le_endMark (hi : i < layout.dataRows) (hc : c < s.numColumns) : layout.columnEnd i c ≤ s.endMark := by
  obtain ⟨hbegin, -, -⟩ := layout.stripe i hi
  unfold columnEnd
  split
  · rename_i hnext
    exact (layout.getMark_lt_endMark (by omega) hnext).le
  · split
    · rename_i hlt
      exact layout.getMark_le_endMark hlt (by omega)
    · exact le_rfl

theorem columnEnd_le (hi : i < layout.dataRows) (hc : c < s.numColumns) :
    layout.columnEnd i c ≤ s.getStartOfNextStripeMark i c := by
  by_cases hcolumns : s.numColumns = 1
  · rw [getStartOfNextStripeMark_one s hcolumns]
    exact layout.columnEnd_le_endMark hi hc
  · rw [layout.getStartOfNextStripeMark_eq hi hc hcolumns]

theorem columnEnd_zero (hi : i < layout.dataRows) (hc : c < s.numColumns) :
    (layout.columnEnd i c).offsetInDecompressedBlock = 0 := by
  unfold columnEnd
  split
  · rename_i hnext
    exact layout.newBlock i hi (c + 1) hnext
  · split
    · rename_i hlt
      rcases Nat.lt_or_ge (layout.stripeEnd i) layout.dataRows with hdata | hfinal
      · -- the stripe that follows begins at its first mark
        obtain ⟨hbegin, hend, -⟩ := layout.stripe _ hdata
        have hbehind := layout.stripeEnd_le_stripeBegin hi hdata le_rfl
        have hzero := layout.newBlock _ hdata 0 (by omega)
        rwa [show layout.stripeBegin (layout.stripeEnd i) = layout.stripeEnd i by omega] at hzero
      · rw [layout.final _ hfinal hlt 0 (by omega)]
        rfl
    · rfl

theorem limit_zero (hi : i < s.marksCount) (hc : c < s.numColumns) :
    (s.getStartOfNextStripeMark i c).offsetInDecompressedBlock = 0 := by
  rcases Nat.lt_or_ge i layout.dataRows with hdata | hfinal
  · by_cases hcolumns : s.numColumns = 1
    · rw [getStartOfNextStripeMark_one s hcolumns]
      rfl
    · rw [layout.getStartOfNextStripeMark_eq hdata hc hcolumns]
      exact layout.columnEnd_zero hdata hc
  · rw [layout.getStartOfNextStripeMark_final hfinal hi hc]
    rfl

theorem getMark_lt_limit (hi : i < layout.dataRows) (hc : c < s.numColumns) :
    s.getMark i c < s.getStartOfNextStripeMark i c :=
  (layout.getMark_lt_columnEnd hi hc).trans_le (layout.columnEnd_le hi hc)

theorem getMark_le_limit (hi : i < s.marksCount) (hc : c < s.numColumns) :
    s.getMark i c ≤ s.getStartOfNextStripeMark i c := by
  rcases Nat.lt_or_ge i layout.dataRows with hdata | hfinal
  · exact (layout.getMark_lt_limit hdata hc).le
  · rw [layout.getStartOfNextStripeMark_final hfinal hi hc, layout.final i hfinal hi c hc]

theorem isBoundary_endMark : file.IsBoundary s.endMark.offsetInCompressedFile := Or.inr layout.fileSize_eq

theorem isBoundary_limit (hi : i < s.marksCount) (hc : c < s.numColumns) :
    file.IsBoundary (s.getStartOfNextStripeMark i c).offsetInCompressedFile := by
  rcases Nat.lt_or_ge i layout.dataRows with hdata | hfinal
  · by_cases hcolumns : s.numColumns = 1
    · rw [getStartOfNextStripeMark_one s hcolumns]
      exact layout.isBoundary_endMark
    · obtain ⟨hbegin, -, -⟩ := layout.stripe i hdata
      rw [layout.getStartOfNextStripeMark_eq hdata hc hcolumns]
      unfold columnEnd
      split
      · rename_i hnext
        exact (layout.validMark (hbegin.trans_lt hi) hnext).isBoundary
      · split
        · rename_i hlt
          exact (layout.validMark hlt (by omega)).isBoundary
        · exact layout.isBoundary_endMark
  · rw [layout.getStartOfNextStripeMark_final hfinal hi hc]
    exact layout.isBoundary_endMark

theorem limit_congr (hk : k ≤ k') (hk' : k' < s.marksCount) (hc : c < s.numColumns)
    (hoffset : (s.getMark k c).offsetInCompressedFile = (s.getMark k' c).offsetInCompressedFile) :
    s.getStartOfNextStripeMark k c = s.getStartOfNextStripeMark k' c := by
  rcases Nat.lt_or_ge k' layout.dataRows with hdata' | hfinal'
  · have hdata : k < layout.dataRows := by omega
    obtain ⟨hbegin, -, -⟩ := layout.stripe k hdata
    obtain ⟨hbegin', hend', -⟩ := layout.stripe k' hdata'
    by_cases hcolumns : s.numColumns = 1
    · rw [getStartOfNextStripeMark_one s hcolumns, getStartOfNextStripeMark_one s hcolumns]
    rcases Nat.lt_or_ge k' (layout.stripeEnd k) with hsame | hlater
    · obtain ⟨hbegin_eq, hend_eq⟩ := layout.stripe_eq k hdata k' (by omega) hsame
      rw [layout.getStartOfNextStripeMark_eq hdata hc hcolumns, layout.getStartOfNextStripeMark_eq hdata' hc hcolumns]
      unfold columnEnd
      rw [hbegin_eq, hend_eq]
    -- a later stripe begins in a later block
    · have hbehind := layout.stripeEnd_le_stripeBegin hdata hdata' hlater
      have hlt := offset_lt (layout.stripe_lt k hdata (layout.stripeBegin k') hbehind (by omega) c hc c hc)
        (layout.newBlock k' hdata' c hc)
      have hle := offset_le (layout.getMark_sorted hc _ _ hbegin' hk')
      omega
  · rcases Nat.lt_or_ge k layout.dataRows with hdata | hfinal
    · have hlt := offset_lt (layout.getMark_lt_endMark hdata hc) rfl
      rw [hoffset, layout.final k' hfinal' hk' c hc] at hlt
      exact absurd hlt (lt_irrefl _)
    · rw [layout.getStartOfNextStripeMark_final hfinal (by omega) hc, layout.getStartOfNextStripeMark_final hfinal' hk' hc]

theorem le_rightOffsetFrom (hk : k < s.marksCount) (hc : c < s.numColumns) (hik : i ≤ k) :
    (s.getMark i c).offsetInCompressedFile ≤ s.rightOffsetFrom k c :=
  (offset_le (layout.getMark_sorted hc i k hik hk)).trans
    (@le_boundFrom (fun i => s.getMark i c) _ _ _ hk (layout.getMark_le_limit hk hc))

theorem rightOffsetFrom_mono (hk : k ≤ k') (hk' : k' < s.marksCount) (hc : c < s.numColumns) :
    s.rightOffsetFrom k c ≤ s.rightOffsetFrom k' c := by
  rcases Nat.eq_or_lt_of_le hk with rfl | hlt
  · exact le_rfl
  have hsorted := layout.getMark_sorted hc
  rcases Nat.eq_or_lt_of_le (offset_le (hsorted k k' hk hk')) with hsame | hbehind
  · rw [rightOffsetFrom_eq, rightOffsetFrom_eq, layout.limit_congr hk hk' hc hsame]
    exact (@boundFrom_congr (fun i => s.getMark i c) _ _ _ _ hsorted hk hk' hsame).le
  · exact (@boundFrom_le (fun i => s.getMark i c) _ _ _ _ hsorted hlt hk' hbehind).trans
      (layout.le_rightOffsetFrom hk' hc le_rfl)

theorem markEnd_le (hi : i < layout.dataRows) (hc : c < s.numColumns) (hij : i < j) (hj : j < s.marksCount) :
    layout.markEnd i c ≤ s.getMark j c := by
  obtain ⟨hbegin, hend, hend_le⟩ := layout.stripe i hi
  have hsorted := layout.getMark_sorted hc
  unfold markEnd
  split
  · exact hsorted (i + 1) j hij hj
  have hbehind : layout.stripeEnd i ≤ j := by omega
  rcases Nat.lt_or_ge j layout.dataRows with hdata | hfinal
  · obtain ⟨hbegin_eq, hend_eq⟩ := layout.stripe_eq i hi (layout.stripeBegin i) le_rfl (by omega)
    unfold columnEnd
    split
    · rename_i hnext
      exact (layout.stripe_lt _ (by omega) j (by omega) hdata (c + 1) hnext c hc).le
    · rw [if_pos (by omega)]
      -- the first column of the next stripe is before all that follows
      have hnext : s.getMark (layout.stripeEnd i) 0 ≤ s.getMark (layout.stripeEnd i) c := by
        obtain ⟨hbegin', hend', -⟩ := layout.stripe (layout.stripeEnd i) (by omega)
        rcases Nat.eq_zero_or_pos c with rfl | hpos
        · exact le_rfl
        · exact (layout.column_lt _ (by omega) _ hbegin' hend' 0 c hpos hc).le
      exact hnext.trans (hsorted _ j hbehind hj)
  · rw [layout.final j hfinal hj c hc]
    exact layout.columnEnd_le_endMark hi hc

theorem markEnd_le_limit (hi : i < layout.dataRows) (hc : c < s.numColumns) :
    layout.markEnd i c ≤ s.getStartOfNextStripeMark i c := by
  obtain ⟨hbegin, hend, hend_le⟩ := layout.stripe i hi
  refine le_trans ?_ (layout.columnEnd_le hi hc)
  unfold markEnd
  split
  · rename_i hnext
    obtain ⟨hbegin_eq, hend_eq⟩ := layout.stripe_eq i hi (i + 1) (by omega) hnext
    have hlt := layout.getMark_lt_columnEnd (show i + 1 < layout.dataRows by omega) hc
    unfold columnEnd at *
    rw [hbegin_eq, hend_eq] at hlt
    exact hlt.le
  · exact le_rfl

/-! ### The bound of a column -/

theorem le_getRightOffsetOneColumn (hir : i < r) (hr : r ≤ s.marksCount) (hc : c < s.numColumns) :
    (s.getMark i c).offsetInCompressedFile ≤ s.getRightOffsetOneColumn r c := by
  obtain ⟨hle, -, hlt, -⟩ := @rightMarkIncluded_spec s r c (by omega) hr
  rw [getRightOffsetOneColumn_pos_eq (by omega) hr]
  exact layout.le_rightOffsetFrom hlt hc (by omega)

/-- What the last included mark holds is before the bound, when it ends at a new block. -/
theorem lt_rightOffsetFrom (hi : i < layout.dataRows) (hc : c < s.numColumns)
    (hzero : (layout.markEnd i c).offsetInDecompressedBlock = 0) (hm : m < layout.markEnd i c) :
    m.offsetInCompressedFile < s.rightOffsetFrom i c := by
  have hcount := layout.dataRows_le
  have hlt := offset_lt hm hzero
  rw [rightOffsetFrom_eq]
  rcases @boundFrom_cases (fun i => s.getMark i c) s.marksCount i (s.getStartOfNextStripeMark i c) (by omega) with
    heq | ⟨j, hij, hj, -, -, heq⟩
  · rw [heq]
    exact hlt.trans_le (offset_le (layout.markEnd_le_limit hi hc))
  · rw [heq]
    exact hlt.trans_le (offset_le (layout.markEnd_le hi hc hij hj))

theorem lt_getRightOffsetOneColumn (hc : c < s.numColumns) (hr : r ≤ s.marksCount) {start : ℕ}
    (hneeds : layout.Needs c r start) : start < s.getRightOffsetOneColumn r c := by
  obtain ⟨i, hir, hi, hmem, offset, -, -, hbefore⟩ := hneeds
  obtain ⟨hbegin, hend, hend_le⟩ := layout.stripe i hi
  obtain ⟨hle, hle', hlt, hzero⟩ := @rightMarkIncluded_spec s r c (by omega) hr
  rw [getRightOffsetOneColumn_pos_eq (by omega) hr]
  rcases Nat.lt_or_ge i (s.rightMarkIncluded r c) with hbelow | hlast
  · have hmark := hbefore.trans_le (layout.markEnd_le hi hc hbelow hlt)
    exact lt_boundFrom (f := fun i => s.getMark i c) hlt (layout.getMark_le_limit hlt hc) (layout.limit_zero hlt hc) hmark
  -- the right mark begins a new block, or a new stripe
  · have heq : s.rightMarkIncluded r c = i := by omega
    rw [heq]
    refine layout.lt_rightOffsetFrom hi hc ?_ hbefore
    unfold markEnd
    split
    · rename_i hnext
      have hcount := layout.dataRows_le
      rw [show i + 1 = r by omega]
      exact hzero (by omega) (by omega)
    · exact layout.columnEnd_zero hi hc

theorem getRightOffsetOneColumn_mono (hc : c < s.numColumns) (hle : r ≤ r') (hr' : r' ≤ s.marksCount) :
    s.getRightOffsetOneColumn r c ≤ s.getRightOffsetOneColumn r' c := by
  rcases Nat.eq_zero_or_pos r with rfl | hpos
  · rcases Nat.eq_zero_or_pos r' with rfl | hpos'
    · exact le_rfl
    · rw [getRightOffsetOneColumn_zero (by omega)]
      exact layout.le_getRightOffsetOneColumn hpos' hr' hc
  · obtain ⟨-, -, hlt', -⟩ := @rightMarkIncluded_spec s r' c (by omega) hr'
    rw [getRightOffsetOneColumn_pos_eq hpos (hle.trans hr'), getRightOffsetOneColumn_pos_eq (by omega) hr']
    exact layout.rightOffsetFrom_mono (rightMarkIncluded_mono hpos hle hr') hlt' hc

theorem isBoundary_getRightOffsetOneColumn (hc : c < s.numColumns) (hr : r ≤ s.marksCount) :
    file.IsBoundary (s.getRightOffsetOneColumn r c) := by
  rcases Nat.eq_zero_or_pos s.marksCount with hcount | hcount
  · unfold getRightOffsetOneColumn
    rw [if_pos hcount]
    exact file.isBoundary_zero
  rcases Nat.eq_zero_or_pos r with rfl | hpos
  · rw [getRightOffsetOneColumn_zero hcount]
    exact (layout.validMark hcount hc).isBoundary
  · obtain ⟨-, -, hlt, -⟩ := @rightMarkIncluded_spec s r c hpos hr
    rw [getRightOffsetOneColumn_pos_eq hpos hr]
    exact @isBoundary_boundFrom file (fun i => s.getMark i c) _ _ _ (fun i hi => layout.validMark hi hc)
      (layout.isBoundary_limit hlt hc) hlt

/-- **The right bound of a column of several cuts nothing.** -/
theorem rightBound (hc : c < s.numColumns) :
    RightBound file s.marksCount (fun r => s.getRightOffsetOneColumn r c) (layout.Needs c) where
  covers _ hr _ hneeds :=
    CompressedFile.blockEnd_le (layout.isBoundary_getRightOffsetOneColumn hc hr) (layout.lt_getRightOffsetOneColumn hc hr hneeds)
  boundary _ hr := layout.isBoundary_getRightOffsetOneColumn hc hr
  mono _ _ hle hr' := layout.getRightOffsetOneColumn_mono hc hle hr'

theorem getRightOffsetOneColumn_pos (hc : c < s.numColumns) (hpos : 0 < r) (hr : r ≤ s.marksCount) (hfile : 0 < file.fileSize) :
    0 < s.getRightOffsetOneColumn r c := by
  obtain ⟨-, -, hlt, -⟩ := @rightMarkIncluded_spec s r c hpos hr
  rw [getRightOffsetOneColumn_pos_eq hpos hr]
  rcases Nat.lt_or_ge (s.rightMarkIncluded r c) layout.dataRows with hdata | hfinal
  · have hlimit := offset_lt (layout.getMark_lt_limit hdata hc) (layout.limit_zero hlt hc)
    rw [rightOffsetFrom_eq]
    rcases @boundFrom_cases (fun i => s.getMark i c) s.marksCount _ (s.getStartOfNextStripeMark (s.rightMarkIncluded r c) c) hlt with
      heq | ⟨j, -, -, hbehind, -, heq⟩
    · rw [heq]
      omega
    · rw [heq]
      omega
  · have hle := layout.le_rightOffsetFrom hlt hc le_rfl
    rw [layout.final _ hfinal hlt c hc, endMark] at hle
    rw [layout.fileSize_eq] at hle
    exact hfile.trans_le hle

/-- The stripe that a range is in is the one of a mark of the range, before the marks to come. -/
def ScanInvariant (c : ℕ) (range : MarkRange) (rest : List ℕ) (scan : StripeScan) : Prop :=
  rest.Pairwise (· < ·) ∧ ∃ k < range.endMark, (∀ mark ∈ rest, k ≤ mark ∧ mark < range.endMark) ∧
    scan.startOfStripeMark = s.getMark k c ∧ scan.startOfNextStripeMark = s.getStartOfNextStripeMark k c

omit layout in
theorem scanInvariant_start (bytes : ℕ × ℕ) {range : MarkRange} (hnonempty : range.beginMark < range.endMark) :
    ScanInvariant (s := s) c range (List.range' range.beginMark (range.endMark - range.beginMark))
      ⟨bytes, s.getMark range.beginMark c, s.getStartOfNextStripeMark range.beginMark c⟩ := by
  refine ⟨List.pairwise_lt_range', range.beginMark, hnonempty, fun mark hmark => ?_, rfl, rfl⟩
  rw [List.mem_range'_1] at hmark
  omega

/-- One mark of a range: a new stripe starts behind the mark that the last one started at. -/
theorem scanMark_step (hc : c < s.numColumns) {range : MarkRange} (hend : range.endMark ≤ s.marksCount) (mark : ℕ)
    (rest : List ℕ) (scan : StripeScan) (h : ScanInvariant (s := s) c range (mark :: rest) scan) :
    ∃ scan', s.scanMark c scan mark = some scan' ∧ ScanInvariant (s := s) c range rest scan' := by
  obtain ⟨hsorted, k, hk, hrest, hstart, hnext⟩ := h
  obtain ⟨hfirst, hsorted⟩ := List.pairwise_cons.1 hsorted
  obtain ⟨hkm, hmark⟩ := hrest mark List.mem_cons_self
  unfold scanMark
  split
  · rename_i hbehind
    have hlt : k < mark := by
      rcases Nat.eq_or_lt_of_le hkm with rfl | hlt
      · rw [hnext] at hbehind
        exact absurd (layout.getMark_le_limit (by omega) hc) (not_le_of_gt hbehind)
      · exact hlt
    obtain ⟨bytes, hbytes⟩ := exists_addRangeBytes scan.bytes (layout.le_getRightOffsetOneColumn hlt (by omega) hc)
    rw [hstart, hbytes]
    exact ⟨_, rfl, hsorted, mark, hmark, fun later hlater => ⟨(hfirst later hlater).le,
      (hrest later (List.mem_cons_of_mem _ hlater)).2⟩, rfl, rfl⟩
  · exact ⟨scan, rfl, hsorted, k, hk, fun later hlater => hrest later (List.mem_cons_of_mem _ hlater), hstart, hnext⟩

theorem exists_estimateRange (hc : c < s.numColumns) {range : MarkRange} (hnonempty : range.beginMark < range.endMark)
    (hend : range.endMark ≤ s.marksCount) (bytes : ℕ × ℕ) : ∃ bytes', s.estimateRange c bytes range = some bytes' := by
  obtain ⟨scan, hscan, -, k, hk, -, hstart, -⟩ := @Loop.exists_foldlM_pure StripeScan ℕ Option _ _ (s.scanMark c)
    (ScanInvariant (s := s) c range) (layout.scanMark_step hc hend) _ _ (scanInvariant_start bytes hnonempty)
  obtain ⟨bytes', hbytes⟩ := exists_addRangeBytes scan.bytes (layout.le_getRightOffsetOneColumn hk hend hc)
  unfold estimateRange
  rw [hscan]
  refine ⟨bytes', ?_⟩
  change addRangeBytes scan.bytes _ _ = _
  rw [hstart, hbytes]

theorem estimateMarkRangeBytesOneColumn_isSome (hc : c < s.numColumns) {markRanges : List MarkRange}
    (hranges : SortedRanges s.marksCount markRanges) : (s.estimateMarkRangeBytesOneColumn markRanges c).isSome = true := by
  obtain ⟨bytes, hbytes, -⟩ := @Loop.exists_foldlM_pure (ℕ × ℕ) MarkRange Option _ _ (s.estimateRange c)
    (fun rest _ => ∀ range ∈ rest, range.beginMark < range.endMark ∧ range.endMark ≤ s.marksCount)
    (fun range rest bytes hrest => by
      obtain ⟨hnonempty, hend⟩ := hrest range List.mem_cons_self
      obtain ⟨bytes', hbytes⟩ := layout.exists_estimateRange hc hnonempty hend bytes
      exact ⟨bytes', hbytes, fun range' hrange' => hrest range' (List.mem_cons_of_mem _ hrange')⟩)
    markRanges (0, 0) hranges.1
  unfold estimateMarkRangeBytesOneColumn
  rw [hbytes]
  rfl

end CompactLayout

/-- **The right bound never cuts needed data**, of a file of one column and of a column of a compact
part: it reaches the end of each block that is needed, is a boundary of blocks and does not decrease,
no limit that is set by it cuts what is needed, and no estimate subtracts the larger offset. -/
theorem rightBound_cuts_nothing (s : ReaderStream) (file : CompressedFile) :
    (s.SingleColumnLayout file → RightBound file s.marksCount s.getRightOffset (s.Needs file) ∧
      NeverCuts file s.marksCount s.getRightOffset (s.Needs file) ∧
      ∀ markRanges, SortedRanges s.marksCount markRanges → (s.estimateMarkRangeBytes markRanges).isSome = true) ∧
    ∀ layout : s.CompactLayout file, ∀ c < s.numColumns,
      RightBound file s.marksCount (fun r => s.getRightOffsetOneColumn r c) (layout.Needs c) ∧
      NeverCuts file s.marksCount (fun r => s.getRightOffsetOneColumn r c) (layout.Needs c) ∧
      ∀ markRanges, SortedRanges s.marksCount markRanges → (s.estimateMarkRangeBytesOneColumn markRanges c).isSome = true := by
  refine ⟨fun h => ⟨h.rightBound, ?_, fun _ hranges => h.estimateMarkRangeBytes_isSome hranges⟩,
    fun layout c hc => ⟨layout.rightBound hc, ?_, fun _ hranges => layout.estimateMarkRangeBytesOneColumn_isSome hc hranges⟩⟩
  · exact h.rightBound.neverCuts (fun r hpos hr hfile => h.getRightOffset_pos hpos hr hfile) fun r start hneeds =>
      SingleColumnLayout.mem_starts_of_needs hneeds
  · refine (layout.rightBound hc).neverCuts (fun r hpos hr hfile => layout.getRightOffsetOneColumn_pos hc hpos hr hfile) ?_
    rintro r start ⟨i, -, -, hmem, -⟩
    exact hmem

/-! ### Layouts of small files -/

/-- Two blocks of ten bytes. -/
def twoBlocks : CompressedFile where
  starts := [0, 10]
  fileSize := 20
  blockBytes _ := 16
  ascending := by decide
  zero_mem _ := by decide
  lt_fileSize := by decide

/-- Four granules in two blocks: the second and the last one begin inside of a block. -/
def oneColumn : ReaderStream where
  marksCount := 4
  fileSize := 20
  getMark i _ := [⟨0, 0⟩, ⟨0, 8⟩, ⟨10, 0⟩, ⟨10, 4⟩].getD i ⟨20, 0⟩

theorem singleColumnLayout_oneColumn : oneColumn.SingleColumnLayout twoBlocks where
  fileSize_eq := rfl
  valid i hi := by
    change i < 4 at hi
    left
    interval_cases i <;> decide
  sorted i j hij hj := by
    change j < 4 at hj
    interval_cases j <;> interval_cases i <;> decide

/-- A stripe of two granules of two columns, and the final mark. -/
def oneStripe : ReaderStream where
  marksCount := 3
  fileSize := 20
  numColumns := 2
  getMark i c := ([[⟨0, 0⟩, ⟨10, 0⟩], [⟨0, 8⟩, ⟨10, 4⟩]].getD i []).getD c ⟨20, 0⟩

def compactLayout_oneStripe : oneStripe.CompactLayout twoBlocks where
  dataRows := 2
  stripeBegin _ := 0
  stripeEnd _ := 2
  fileSize_eq := rfl
  dataRows_le := by decide
  final i hi hlt c hc := by
    change i < 3 at hlt
    change c < 2 at hc
    interval_cases i
    interval_cases c <;> rfl
  stripe := by decide
  stripe_eq _ _ _ _ _ := ⟨rfl, rfl⟩
  mem_starts := by decide
  inBlock := by decide
  newBlock := by decide
  sorted i _ j hij hj c hc := by
    change c < 2 at hc
    interval_cases j <;> interval_cases i <;> interval_cases c <;> decide
  column_lt i hi j _ hj c c' hcc hc' := by
    change c' < 2 at hc'
    interval_cases j <;> interval_cases i <;> interval_cases c' <;> interval_cases c <;> decide
  stripe_lt _ _ j hj hlt := absurd hlt (by omega)

theorem rightBound_twoBlocks :
    RightBound twoBlocks 4 oneColumn.getRightOffset (oneColumn.Needs twoBlocks) ∧
      RightBound twoBlocks 3 (fun r => oneStripe.getRightOffsetOneColumn r 1) (compactLayout_oneStripe.Needs 1) :=
  ⟨((rightBound_cuts_nothing oneColumn twoBlocks).1 singleColumnLayout_oneColumn).1,
    ((rightBound_cuts_nothing oneStripe twoBlocks).2 compactLayout_oneStripe 1 (by decide)).1⟩

/-- Three blocks of ten bytes. -/
def threeBlocks : CompressedFile where
  starts := [0, 10, 20]
  fileSize := 30
  blockBytes _ := 16
  ascending := by decide
  zero_mem _ := by decide
  lt_fileSize := by decide

/-- Three dictionaries, the first one for two granules. -/
def threeDictionaries : ReaderStream where
  marksCount := 4
  fileSize := 30
  getMark i _ := [⟨0, 0⟩, ⟨0, 0⟩, ⟨10, 0⟩, ⟨20, 0⟩].getD i ⟨30, 0⟩
  isLowCardinalityDictionary := true

/-- **The next different dictionary need not be below the bound**: up to mark 1 the first dictionary is
read, which mark 1 still points to, and nothing of the second one. -/
theorem not_covers_nextDictionary :
    ¬∀ (s : ReaderStream) (file : CompressedFile), s.SingleColumnLayout file → s.isLowCardinalityDictionary = true →
      ∀ r ≤ s.marksCount, ∀ i < r, ∀ j, s.NextDifferent i j → ∀ start,
        file.HoldsBetween start (s.getMark j 0) (s.dictionaryEnd j) → file.blockEnd start ≤ s.getRightOffset r := by
  intro hall
  have hlayout : threeDictionaries.SingleColumnLayout threeBlocks := by
    refine ⟨rfl, fun i hi => ?_, fun i j hij hj => ?_⟩
    · change i < 4 at hi
      left
      interval_cases i <;> decide
    · change j < 4 at hj
      interval_cases j <;> interval_cases i <;> decide
  have hnext : threeDictionaries.NextDifferent 0 2 := by
    refine ⟨by decide, by decide, by decide⟩
  have hholds : threeBlocks.HoldsBetween 10 (threeDictionaries.getMark 2 0) (threeDictionaries.dictionaryEnd 2) :=
    ⟨by decide, 0, by decide, by decide, by decide⟩
  exact absurd (hall threeDictionaries threeBlocks hlayout rfl 1 (by decide) 0 (by decide) 2 hnext 10 hholds) (by decide)

end ReaderStream

end MergeTree
