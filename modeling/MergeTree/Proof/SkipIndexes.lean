import MergeTree.Lib.Loops
import MergeTree.Spec.SkipIndexes

/-!
# Skip indexes lose no mark

The table of partial results stays sound while the indexes run: a bit is false only if its
atom holds on no row of its mark (`PartialDisjunctionResult.Sound`). The value of the
template over a sound table is true wherever the formula is, since `NOT` gives up on its
argument (`oneSided_of_satisfies`), so merging keeps every mark with a row that
satisfies the formula (`mergePartialResultsForDisjunctions_keeps`).
-/

namespace MergeTree

/-! ## Marks and ranges -/

namespace MarkRanges

variable {ranges res : MarkRanges} {mark minMarksForSeek : ℕ}

/-- The ranges found so far: sorted, disjoint, not empty, and before a bound. -/
structure Found (bound : ℕ) (res : MarkRanges) : Prop where
  nonempty : ∀ range ∈ res, range.beginMark < range.endMark
  disjoint : res.Pairwise fun r s => r.endMark ≤ s.beginMark
  before : ∀ range ∈ res, range.endMark ≤ bound

theorem Found.mono {bound bound' : ℕ} (h : Found bound res) (hle : bound ≤ bound') : Found bound' res :=
  ⟨h.nonempty, h.disjoint, fun range hrange => (h.before range hrange).trans hle⟩

theorem Found.sortedDisjoint {bound : ℕ} (h : Found bound res) : res.SortedDisjoint :=
  ⟨fun range hrange => (h.nonempty range hrange).le, h.disjoint⟩

theorem Found.append {bound : ℕ} (h : Found bound res) {range : MarkRange} (hbound : bound ≤ range.beginMark)
    (hne : range.beginMark < range.endMark) : Found range.endMark (res ++ [range]) where
  nonempty := by
    intro r hr
    rcases List.mem_append.1 hr with hr | hr
    · exact h.nonempty r hr
    · rw [List.mem_singleton.1 hr]
      exact hne
  disjoint := by
    refine List.pairwise_append.2 ⟨h.disjoint, List.pairwise_singleton _ _, fun r hr s hs => ?_⟩
    rw [List.mem_singleton.1 hs]
    exact (h.before r hr).trans hbound
  before := by
    intro r hr
    rcases List.mem_append.1 hr with hr | hr
    · exact ((h.before r hr).trans hbound).trans hne.le
    · rw [List.mem_singleton.1 hr]

theorem Found.extend {bound endMark : ℕ} {init : MarkRanges} {back : MarkRange} (h : Found bound (init ++ [back]))
    (hend : bound < endMark) : Found endMark (init ++ [⟨back.beginMark, endMark⟩]) where
  nonempty := by
    intro r hr
    rcases List.mem_append.1 hr with hr | hr
    · exact h.nonempty r (List.mem_append_left _ hr)
    · have hback := h.nonempty back List.mem_concat_self
      have hbefore := h.before back List.mem_concat_self
      rw [List.mem_singleton.1 hr]
      exact (hback.trans_le hbefore).trans hend
  disjoint := by
    obtain ⟨hinit, -, hlast⟩ := List.pairwise_append.1 h.disjoint
    refine List.pairwise_append.2 ⟨hinit, List.pairwise_singleton _ _, fun r hr s hs => ?_⟩
    rw [List.mem_singleton.1 hs]
    exact hlast r hr back (List.mem_singleton.2 rfl)
  before := by
    intro r hr
    rcases List.mem_append.1 hr with hr | hr
    · exact (h.before r (List.mem_append_left _ hr)).trans hend.le
    · rw [List.mem_singleton.1 hr]

theorem Found.pushRange {bound : ℕ} (h : Found bound res) {range : MarkRange} (hbound : bound ≤ range.beginMark)
    (hne : range.beginMark < range.endMark) (hlt : range.beginMark < 2 ^ 64) (minMarksForSeek : ℕ) :
    Found range.endMark (MarkRanges.pushRange minMarksForSeek res range) ∧
      (∀ m, res.Covers m ∨ (range.beginMark ≤ m ∧ m < range.endMark) →
        (MarkRanges.pushRange minMarksForSeek res range).Covers m) ∧
      (minMarksForSeek = 0 → ∀ m, (MarkRanges.pushRange minMarksForSeek res range).Covers m →
        res.Covers m ∨ (range.beginMark ≤ m ∧ m < range.endMark)) := by
  have happend : Found range.endMark (res ++ [range]) ∧
      (∀ m, res.Covers m ∨ (range.beginMark ≤ m ∧ m < range.endMark) ↔ MarkRanges.Covers (res ++ [range]) m) := by
    refine ⟨h.append hbound hne, fun m => ?_⟩
    rw [covers_append, covers_singleton]
  rcases List.eq_nil_or_concat res with rfl | ⟨init, back, rfl⟩
  · exact ⟨happend.1, fun m => (happend.2 m).1, fun _ m => (happend.2 m).2⟩
  · rw [List.concat_eq_append] at h happend ⊢
    have hbefore := (h.before back List.mem_concat_self).trans hbound
    have hnonempty := h.nonempty back List.mem_concat_self
    have hgap : subSize range.beginMark back.endMark = range.beginMark - back.endMark := subSize_of_le hbefore hlt
    unfold MarkRanges.pushRange
    rw [List.getLast?_append_cons, List.getLast?_singleton, List.dropLast_concat]
    dsimp only
    split
    · exact ⟨happend.1, fun m => (happend.2 m).1, fun _ m => (happend.2 m).2⟩
    · rename_i hsmall
      rw [hgap] at hsmall
      refine ⟨h.extend (hbound.trans_lt hne), fun m => ?_, fun hzero m => ?_⟩
      · rw [covers_append, covers_append, covers_singleton, covers_singleton, or_assoc]
        refine Or.imp_right fun hm => ?_
        dsimp only
        omega
      · rw [covers_append, covers_append, covers_singleton, covers_singleton, or_assoc]
        refine Or.imp_right fun hm => ?_
        -- without a gap the last range ends where the new one begins
        dsimp only at hm
        omega

end MarkRanges

/-! ## The template -/

section Template

variable {rpnText : String} {T : PartialDisjunctionResult} {mark : ℕ}

/-- What the source computes over the bits of a mark: `NOT` is true whatever its argument is. -/
def oneSided (cell : ℕ → Bool) : Postfix.Algebra TemplateOperand Unit RPNOperator Bool where
  operand
    | .atom position => cell position
    | .const value => value
  unary _ _ := true
  binary
    | .and, a, b => a && b
    | .or, a, b => a || b

/-- The bits of a mark. -/
def PartialDisjunctionResult.cell (T : PartialDisjunctionResult) (mark position : ℕ) : Bool :=
  T.getD (partialResultBit mark position) true

theorem PartialDisjunctionResult.get_eq {position : ℕ} (h : partialResultBit mark position < T.length) :
    T.get mark position = .ok (T.cell mark position) := by
  unfold get cell
  rw [List.getElem?_eq_getElem h, List.getD_eq_getElem _ _ h]

theorem evalElement_eq_ok {position : ℕ} (h : partialResultBit mark position < T.length) {function : RPNFunction}
    {token : TemplateToken} (htoken : templateToken position function = some token) {stack stack' : List Bool}
    (hstep : (oneSided (T.cell mark)).step stack token = some stack') :
    evalElement rpnText T mark position function stack = .ok stack' := by
  cases function with
  | functionUnknown =>
    obtain rfl := Option.some.inj htoken
    obtain rfl := Option.some.inj hstep
    unfold evalElement
    dsimp only
    rw [T.get_eq h]
    rfl
  | functionNot =>
    obtain rfl := Option.some.inj htoken
    cases stack with
    | nil => cases hstep
    | cons x rest =>
      obtain rfl := Option.some.inj hstep
      rfl
  | functionOr =>
    obtain rfl := Option.some.inj htoken
    match stack, hstep with
    | a :: b :: rest, hstep =>
      obtain rfl := Option.some.inj hstep
      rfl
  | functionAnd =>
    obtain rfl := Option.some.inj htoken
    match stack, hstep with
    | a :: b :: rest, hstep =>
      obtain rfl := Option.some.inj hstep
      rfl
  | alwaysTrue =>
    obtain rfl := Option.some.inj htoken
    obtain rfl := Option.some.inj hstep
    rfl
  | alwaysFalse =>
    obtain rfl := Option.some.inj htoken
    obtain rfl := Option.some.inj hstep
    rfl
  | functionInRange => cases htoken
  | functionNotInRange => cases htoken
  | functionInSet => cases htoken
  | functionNotInSet => cases htoken
  | functionIsNull => cases htoken
  | functionIsNotNull => cases htoken
  | functionArgsInHyperrectangle => cases htoken
  | functionPointInPolygon => cases htoken

theorem templateTokens_cons {position : ℕ} {function : RPNFunction} {rpn : List RPNFunction} {tokens : List TemplateToken}
    (h : templateTokens position (function :: rpn) = some tokens) :
    ∃ token rest, templateToken position function = some token ∧ templateTokens (position + 1) rpn = some rest ∧
      tokens = token :: rest := by
  unfold templateTokens at h
  split at h
  · rename_i token rest htoken hrest
    exact ⟨token, rest, htoken, hrest, (Option.some.inj h).symm⟩
  · cases h

theorem evalElements_eq_ok {n : ℕ} (hcells : ∀ position < n, partialResultBit mark position < T.length) :
    ∀ {rpn : List RPNFunction} {position : ℕ} {tokens : List TemplateToken} {stack stack' : List Bool},
      position + rpn.length ≤ n → templateTokens position rpn = some tokens →
        (oneSided (T.cell mark)).run tokens stack = some stack' →
          evalElements rpnText T mark position rpn stack = .ok stack' := by
  intro rpn
  induction rpn with
  | nil =>
    intro position tokens stack stack' _ htokens hrun
    obtain rfl := Option.some.inj htokens
    obtain rfl := Option.some.inj hrun
    rfl
  | cons function rpn ih =>
    intro position tokens stack stack' hn htokens hrun
    obtain ⟨token, rest, htoken, hrest, rfl⟩ := templateTokens_cons htokens
    rw [List.length_cons] at hn
    rw [Postfix.Algebra.run_cons] at hrun
    obtain ⟨s₁, hstep, hrun⟩ := Option.bind_eq_some_iff.1 hrun
    unfold evalElements
    rw [evalElement_eq_ok (hcells position (by omega)) htoken hstep]
    exact ih (by omega) hrest hrun

theorem evalTemplate_eq_ok {rpn : List RPNFunction}
    (hcells : ∀ position < rpn.length, partialResultBit mark position < T.length) {tokens : List TemplateToken}
    (htokens : templateTokens 0 rpn = some tokens) {value : Bool}
    (hvalue : (oneSided (T.cell mark)).eval tokens = some value) :
    evalTemplate rpnText T rpn mark = .ok value := by
  unfold evalTemplate
  rw [evalElements_eq_ok hcells (Nat.le_of_eq (Nat.zero_add _)) htokens (Postfix.Algebra.eval_eq_some _ |>.1 hvalue)]
  rfl

theorem getElem?_of_atom {q : ℕ} : ∀ {rpn : List RPNFunction} {position : ℕ} {tokens : List TemplateToken},
    templateTokens position rpn = some tokens → Postfix.Token.operand (.atom q) ∈ tokens →
      ∃ i, q = position + i ∧ rpn[i]? = some .functionUnknown := by
  intro rpn
  induction rpn with
  | nil =>
    intro position tokens htokens hmem
    obtain rfl := Option.some.inj htokens
    cases hmem
  | cons function rpn ih =>
    intro position tokens htokens hmem
    obtain ⟨token, rest, htoken, hrest, rfl⟩ := templateTokens_cons htokens
    rcases List.mem_cons.1 hmem with heq | hmem
    · subst heq
      refine ⟨0, ?_, ?_⟩ <;> cases function <;> cases htoken <;> rfl
    · obtain ⟨i, rfl, hi⟩ := ih hrest hmem
      exact ⟨i + 1, by omega, hi⟩

/-- Where the formula is true, so is the value over bits that are false only for atoms that do not hold. -/
theorem oneSided_of_satisfies {rpn : List RPNFunction} {holds : ℕ → Prop} {cell : ℕ → Bool}
    (hcell : ∀ position, rpn[position]? = some .functionUnknown → cell position = false → ¬ holds position)
    {tokens : List TemplateToken} (htokens : templateTokens 0 rpn = some tokens) (hsat : Satisfies rpn holds) :
    (oneSided cell).eval tokens = some true := by
  obtain ⟨tokens', htokens', p, hp, hholds⟩ := hsat
  obtain rfl : tokens' = tokens := Option.some.inj (htokens'.symm.trans htokens)
  have hrelated : Postfix.Related (fun (p : Prop) (b : Bool) => p → b = true) (templateMeaning holds) (oneSided cell) tokens' := by
    refine ⟨?_, fun _ _ _ _ _ => rfl, ?_⟩
    · intro a ha
      cases a with
      | atom position =>
        intro hposition
        obtain ⟨i, hi, hunknown⟩ := getElem?_of_atom htokens ha
        rw [Nat.zero_add] at hi
        by_contra hfalse
        exact hcell position (hi ▸ hunknown) (Bool.not_eq_true _ ▸ hfalse) hposition
      | const value => exact id
    · intro op p p' b b' hp hp'
      cases op with
      | and => exact fun h => Bool.and_eq_true_iff.2 ⟨hp h.1, hp' h.2⟩
      | or => exact fun h => Bool.or_eq_true_iff.2 (h.imp hp hp')
  obtain ⟨value, hvalue, hle⟩ := hrelated.eval hp
  rw [hvalue, hle hholds]

end Template

/-! ## The table -/

/-- A bit of an atom is false only if the atom holds on no row of the mark. -/
structure PartialDisjunctionResult.Sound (part : PartMarks) (rpn : List RPNFunction) (holds : ℕ → ℕ → Prop)
    (T : PartialDisjunctionResult) : Prop where
  length_eq : T.length = part.getMarksCountWithoutFinal * maxBitsForPartialDisjunctionResult
  bits : ∀ mark position, rpn[position]? = some .functionUnknown → T.cell mark position = false →
    ∀ row, part.RowOfMark mark row → ¬ holds position row

section Table

variable {part : PartMarks} {rpn : List RPNFunction} {holds : ℕ → ℕ → Prop} {T : PartialDisjunctionResult}
  {mark position : ℕ}

theorem PartialDisjunctionResult.Sound.bit_lt (h : T.Sound part rpn holds) (hmark : mark < part.getMarksCountWithoutFinal)
    (hposition : position < maxBitsForPartialDisjunctionResult) : partialResultBit mark position < T.length := by
  rw [h.length_eq]
  unfold partialResultBit maxBitsForPartialDisjunctionResult at *
  omega

theorem partialResultBit_inj {mark' position' : ℕ} (hposition : position < maxBitsForPartialDisjunctionResult)
    (hposition' : position' < maxBitsForPartialDisjunctionResult)
    (h : partialResultBit mark position = partialResultBit mark' position') : mark = mark' ∧ position = position' := by
  unfold partialResultBit maxBitsForPartialDisjunctionResult at *
  omega

theorem PartMarks.initialPartialResult_sound (part : PartMarks) (rpn : List RPNFunction) (holds : ℕ → ℕ → Prop) :
    PartialDisjunctionResult.Sound part rpn holds part.initialPartialResult where
  length_eq := List.length_replicate
  bits mark position _ hfalse := by
    unfold PartialDisjunctionResult.cell initialPartialResult at hfalse
    rw [List.getD_eq_getElem?_getD, List.getElem?_replicate] at hfalse
    split at hfalse <;> cases hfalse

theorem PartialDisjunctionResult.Sound.update (h : T.Sound part rpn holds) (hlength : rpn.length ≤ maxBitsForPartialDisjunctionResult)
    (hmark : mark < part.getMarksCountWithoutFinal) {reports : List AtomReport} {rows : ℕ → Prop}
    (hreports : ReportsSound rpn holds rows reports) (hrows : ∀ row, part.RowOfMark mark row → rows row)
    {report : AtomReport} (hreport : report ∈ reports) :
    ∃ T', PartialDisjunctionResult.update mark T report = .ok T' ∧ T'.Sound part rpn holds := by
  unfold PartialDisjunctionResult.update
  split
  · exact ⟨T, rfl, h⟩
  · rename_i hknown
    obtain ⟨hposition, hsound⟩ := hreports report hreport (Bool.not_eq_true _ ▸ hknown)
    have hbit := h.bit_lt hmark (lt_of_lt_of_le hposition hlength)
    refine ⟨_, if_pos hbit, by rw [List.length_set, h.length_eq], ?_⟩
    intro m p hunknown hfalse row hrow
    have hp : p < rpn.length := (List.getElem?_eq_some_iff.1 hunknown).1
    by_cases heq : partialResultBit m p = partialResultBit mark report.position
    · -- the bit that is written
      obtain ⟨rfl, rfl⟩ := partialResultBit_inj (lt_of_lt_of_le hp hlength) (lt_of_lt_of_le hposition hlength) heq
      unfold PartialDisjunctionResult.cell at hfalse
      rw [List.getD_eq_getElem?_getD, List.getElem?_set_self hbit] at hfalse
      exact hsound hunknown hfalse row (hrows row hrow)
    · refine h.bits m p hunknown ?_ row hrow
      unfold PartialDisjunctionResult.cell at hfalse ⊢
      rwa [List.getD_eq_getElem?_getD, List.getElem?_set_ne (Ne.symm heq), ← List.getD_eq_getElem?_getD] at hfalse

theorem FilterState.exists_answer {st : FilterState} (h : st.partialResult.Sound part rpn holds)
    (hlength : rpn.length ≤ maxBitsForPartialDisjunctionResult) (hmark : mark < part.getMarksCountWithoutFinal)
    {reported : List AtomReport × Bool} {rows : ℕ → Prop} (hreports : ReportsSound rpn holds rows reported.1)
    (hrows : ∀ row, part.RowOfMark mark row → rows row) (minMarksForSeek : ℕ) (dataRange : MarkRange) :
    ∃ st', st.answer minMarksForSeek mark dataRange reported = .ok st' ∧ st'.partialResult.Sound part rpn holds := by
  obtain ⟨T', hrun, hT'⟩ := Loop.exists_foldlM_of_mem (I := PartialDisjunctionResult.Sound part rpn holds)
    (fun report hreport T hT => hT.update hlength hmark hreports hrows hreport) h
  unfold FilterState.answer
  rw [hrun]
  exact ⟨_, rfl, hT'⟩

theorem exists_textRanges {ranges : MarkRanges} (hranges : ∀ range ∈ ranges, part.Contains range)
    (hlength : rpn.length ≤ maxBitsForPartialDisjunctionResult) {mayBeTrueOnGranule : RowsRange → List AtomReport × Bool}
    (hsound : (IndexAccess.text mayBeTrueOnGranule).Sound part 1 rpn holds) (minMarksForSeek : ℕ) (st : FilterState)
    (h : st.partialResult.Sound part rpn holds) :
    ∃ st', ranges.foldlM (textRange part minMarksForSeek mayBeTrueOnGranule) st = .ok st' ∧
      st'.partialResult.Sound part rpn holds := by
  refine Loop.exists_foldlM_of_mem (I := fun st : FilterState => st.partialResult.Sound part rpn holds) ?_ h
  intro range hrange st h
  refine Loop.exists_foldlM_of_mem (I := fun st : FilterState => st.partialResult.Sound part rpn holds) ?_ h
  intro mark hmark st h
  have hlt : mark < part.getMarksCountWithoutFinal := by
    have hend := (hranges range hrange).2
    rw [List.mem_range'_1] at hmark
    omega
  unfold textMark
  dsimp only
  split
  · exact ⟨st, rfl, h⟩
  · refine FilterState.exists_answer h hlength hlt (hsound _) (fun row hrow => ?_) _ _
    obtain ⟨hbegin, hend⟩ := hrow
    exact ⟨hbegin, Nat.le_sub_one_of_lt hend⟩

end Table

/-! ## Index granules -/

/-- An index mark of a range begins before the end of the range, and what is recorded for it goes to a
mark it covers. -/
theorem MarkRange.mem_indexRange {range : MarkRange} {g i : ℕ} (hg : 1 ≤ g) (hend : range.endMark < 2 ^ 64)
    (hbegin : (range.indexRange g).beginMark ≤ i) (hi : i < (range.indexRange g).endMark) :
    mulSize i g = i * g ∧ i * g < range.endMark ∧ max range.beginMark (i * g) / g = i := by
  unfold MarkRange.indexRange at hbegin hi
  dsimp only at hbegin hi
  have hbound : subSize (addSize range.endMark g) 1 ≤ range.endMark + g - 1 := by
    unfold subSize addSize
    omega
  have hmul : (i + 1) * g ≤ subSize (addSize range.endMark g) 1 := (Nat.le_div_iff_mul_le hg).1 hi
  have hlt : i * g < range.endMark := by
    rw [Nat.succ_mul] at hmul
    omega
  refine ⟨mulSize_of_lt (hlt.trans hend), hlt, ?_⟩
  have hbelow : range.beginMark < (i + 1) * g := (Nat.div_lt_iff_lt_mul hg).1 (Nat.lt_succ_of_le hbegin)
  refine Nat.div_eq_of_lt_le (le_max_right _ _) (max_lt hbelow ?_)
  rw [Nat.succ_mul]
  omega

section Granules

variable {part : PartMarks} {rpn : List RPNFunction} {holds : ℕ → ℕ → Prop} {Granule : Type} {read : ℕ → Granule}
  {mayBeTrueOnGranule : Granule → List AtomReport × Bool} {g : ℕ} {st : GranuleState Granule}

/-- For a range that begins at the bound or after it, the granule kept is the one it needs first. -/
def GranuleState.Fresh (part : PartMarks) (read : ℕ → Granule) (g bound : ℕ) (st : GranuleState Granule) : Prop :=
  ∀ b, bound ≤ b → b < part.getMarksCountWithoutFinal → st.lastIndexMark = b / g →
    ∀ granule, st.granule = some granule → granule = read (b / g)

theorem GranuleState.granuleAt_eq {indexRange : MarkRange} {i : ℕ}
    (h : i = indexRange.beginMark → st.lastIndexMark = indexRange.beginMark → ∀ granule, st.granule = some granule →
      granule = read i) : st.granuleAt read indexRange i = read i := by
  unfold granuleAt
  split
  · rename_i granule hgranule
    split
    · rfl
    · rename_i hsame
      rw [not_or, not_not, not_not] at hsame
      exact h hsame.1 hsame.2 granule hgranule
  · rfl

/-- What holds before an index mark of a range: the first mark finds the state of the range before, any
other the granule of the mark before it. -/
structure GranuleState.Inside (part : PartMarks) (rpn : List RPNFunction) (holds : ℕ → ℕ → Prop) (read : ℕ → Granule)
    (st before : GranuleState Granule) (first i : ℕ) : Prop where
  first_le : first ≤ i
  sound : st.filter.partialResult.Sound part rpn holds
  last : st.lastIndexMark = before.lastIndexMark
  granule : if i = first then st.granule = before.granule else st.granule = some (read (i - 1))

theorem GranuleState.Inside.granuleMark {range : MarkRange} (hrange : part.Contains range) (hg : 1 ≤ g)
    (hlength : rpn.length ≤ maxBitsForPartialDisjunctionResult)
    (hsound : (IndexAccess.granules Granule read mayBeTrueOnGranule).Sound part g rpn holds)
    {before : GranuleState Granule} (hfresh : before.Fresh part read g range.beginMark) (minMarksForSeek : ℕ) {i : ℕ}
    (hi : i < (range.indexRange g).endMark) (h : st.Inside part rpn holds read before (range.indexRange g).beginMark i) :
    ∃ st', MergeTree.granuleMark minMarksForSeek g read mayBeTrueOnGranule range st i = .ok st' ∧
      st'.Inside part rpn holds read before (range.indexRange g).beginMark (i + 1) := by
  obtain ⟨hmul, hlt, hdiv⟩ := MarkRange.mem_indexRange hg (lt_of_le_of_lt hrange.2 part.marks_lt) h.first_le hi
  have hgranule : st.granuleAt read (range.indexRange g) i = read i := by
    refine granuleAt_eq fun hfirst hlast granule hsome => ?_
    have hkept := h.granule
    rw [if_pos hfirst] at hkept
    rw [hfirst]
    exact hfresh range.beginMark le_rfl hrange.1 (h.last ▸ hlast) granule (hkept ▸ hsome)
  have hmark : max range.beginMark (mulSize i g) < part.getMarksCountWithoutFinal :=
    max_lt hrange.1 (hmul ▸ lt_of_lt_of_le hlt hrange.2)
  obtain ⟨filter, hanswer, hfilter⟩ := FilterState.exists_answer h.sound hlength hmark (hsound i)
    (fun row hrow => ⟨_, hmul.symm ▸ hdiv, hrow⟩) minMarksForSeek
    ⟨max range.beginMark (mulSize i g), min range.endMark (mulSize (addSize i 1) g)⟩
  unfold MergeTree.granuleMark
  rw [hgranule]
  dsimp only
  rw [hanswer]
  refine ⟨_, rfl, Nat.le_succ_of_le h.first_le, hfilter, h.last, ?_⟩
  have hne : i + 1 ≠ (range.indexRange g).beginMark := Nat.ne_of_gt (Nat.lt_succ_of_le h.first_le)
  rw [if_neg hne]
  rfl

theorem exists_granuleRange {range : MarkRange} (hle : range.beginMark ≤ range.endMark) (hrange : part.Contains range)
    (hg : 1 ≤ g) (hlength : rpn.length ≤ maxBitsForPartialDisjunctionResult)
    (hsound : (IndexAccess.granules Granule read mayBeTrueOnGranule).Sound part g rpn holds)
    (hfresh : st.Fresh part read g range.beginMark) (h : st.filter.partialResult.Sound part rpn holds)
    (minMarksForSeek : ℕ) : ∃ st', granuleRange minMarksForSeek g read mayBeTrueOnGranule st range = .ok st' ∧
      st'.Fresh part read g range.endMark ∧ st'.filter.partialResult.Sound part rpn holds := by
  have hstart : st.Inside part rpn holds read st (range.indexRange g).beginMark (range.indexRange g).beginMark :=
    ⟨le_rfl, h, rfl, by rw [if_pos rfl]⟩
  obtain ⟨st₁, hrun, i, hi, h₁⟩ := Loop.exists_foldlM
    (f := granuleMark minMarksForSeek g read mayBeTrueOnGranule range)
    (I := fun rest s => ∃ i, (rest = List.range' i ((range.indexRange g).endMark - i) ∧
      (i = (range.indexRange g).beginMark ∨ i ≤ (range.indexRange g).endMark)) ∧
        s.Inside part rpn holds read st (range.indexRange g).beginMark i)
    (fun a rest s ⟨i, ⟨hrest, _⟩, hs⟩ => by
      obtain ⟨n, hn⟩ : ∃ n, (range.indexRange g).endMark - i = n + 1 := by
        refine Nat.exists_eq_succ_of_ne_zero fun hzero => ?_
        rw [hzero] at hrest
        cases hrest
      rw [hn, List.range'_succ, List.cons.injEq] at hrest
      obtain ⟨rfl, rfl⟩ := hrest
      obtain ⟨s', hstep, hs'⟩ := hs.granuleMark hrange hg hlength hsound hfresh minMarksForSeek (by omega)
      refine ⟨s', hstep, a + 1, ⟨?_, Or.inr (by omega)⟩, hs'⟩
      rw [show (range.indexRange g).endMark - (a + 1) = n by omega])
    ⟨_, ⟨rfl, Or.inl rfl⟩, hstart⟩
  unfold granuleRange
  dsimp only
  rw [hrun]
  refine ⟨_, rfl, ?_, h₁.sound⟩
  intro b hb hmarks hlast granule hgranule
  dsimp only at hlast hgranule
  have hfinished : (range.indexRange g).endMark ≤ i := by
    by_contra hnot
    rw [show (range.indexRange g).endMark - i = ((range.indexRange g).endMark - i - 1) + 1 by omega, List.range'_succ] at hi
    cases hi.1
  have hend : (range.indexRange g).endMark < 2 ^ 64 := by
    refine lt_of_le_of_lt (Nat.div_le_self _ _) ?_
    unfold subSize
    omega
  have hkept := h₁.granule
  by_cases hfirst : i = (range.indexRange g).beginMark
  · -- no index mark: the last index mark lies before every range that follows
    exfalso
    have hdiv : range.beginMark / g ≤ b / g := Nat.div_le_div_right (hle.trans hb)
    have hquotient : b / g ≤ b := Nat.div_le_self _ _
    have hmarks_lt := part.marks_lt
    have hbegin : (range.indexRange g).beginMark = range.beginMark / g := rfl
    rcases Nat.eq_zero_or_pos (range.indexRange g).endMark with hzero | hpos
    · rw [hzero] at hlast
      have : subSize 0 1 = 2 ^ 64 - 1 := rfl
      omega
    · rw [subSize_of_le hpos hend] at hlast
      omega
  · rw [if_neg hfirst] at hkept
    have hle' := h₁.first_le
    have hieq : i = (range.indexRange g).endMark := by
      rcases hi.2 with heq | hle
      · exact absurd heq hfirst
      · exact le_antisymm hle hfinished
    rw [hkept] at hgranule
    rw [← hlast, subSize_of_le (by omega) hend, ← hieq]
    exact (Option.some.inj hgranule).symm

theorem exists_granuleRanges {ranges : MarkRanges} (hsorted : ranges.SortedDisjoint)
    (hranges : ∀ range ∈ ranges, part.Contains range) (hg : 1 ≤ g)
    (hlength : rpn.length ≤ maxBitsForPartialDisjunctionResult)
    (hsound : (IndexAccess.granules Granule read mayBeTrueOnGranule).Sound part g rpn holds)
    {T : PartialDisjunctionResult} (h : T.Sound part rpn holds) (minMarksForSeek : ℕ) :
    ∃ st', ranges.foldlM (granuleRange minMarksForSeek g read mayBeTrueOnGranule) { filter := { partialResult := T } } = .ok st' ∧
      st'.filter.partialResult.Sound part rpn holds := by
  have hnothing : ({ filter := { partialResult := T } } : GranuleState Granule).Fresh part read g 0 := by
    intro b _ _ _ granule hnone
    cases hnone
  obtain ⟨st', hrun, -, -, -, h'⟩ := Loop.exists_foldlM (f := granuleRange minMarksForSeek g read mayBeTrueOnGranule)
    (I := fun rest st => MarkRanges.SortedDisjoint rest ∧ (∀ range ∈ rest, part.Contains range) ∧
      (∃ bound, st.Fresh part read g bound ∧ ∀ range ∈ rest, bound ≤ range.beginMark) ∧
        st.filter.partialResult.Sound part rpn holds)
    (fun range rest st ⟨hsorted, hranges, ⟨bound, hfresh, hbound⟩, hst⟩ => by
      obtain ⟨hafter, hdisjoint⟩ := List.pairwise_cons.1 hsorted.disjoint
      have hfirst := hbound range List.mem_cons_self
      obtain ⟨st', hstep, hfresh', hst'⟩ := exists_granuleRange
        (hsorted.begin_le range List.mem_cons_self) (hranges range List.mem_cons_self) hg hlength hsound
        (fun b hb => hfresh b (hfirst.trans hb)) hst minMarksForSeek
      exact ⟨st', hstep, ⟨fun r hr => hsorted.begin_le r (List.mem_cons_of_mem _ hr), hdisjoint⟩,
        fun r hr => hranges r (List.mem_cons_of_mem _ hr), ⟨_, hfresh', hafter⟩, hst'⟩)
    (s := { filter := { partialResult := T } }) ⟨hsorted, hranges, ⟨0, hnothing, fun _ _ => Nat.zero_le _⟩, h⟩
  exact ⟨st', hrun, h'⟩

end Granules

/-! ## All indexes -/

section Indexes

variable {part : PartMarks} {rpn : List RPNFunction} {holds : ℕ → ℕ → Prop} {ranges : MarkRanges}

theorem exists_filterMarksUsingIndex (hsorted : ranges.SortedDisjoint) (hranges : ∀ range ∈ ranges, part.Contains range)
    (hlength : rpn.length ≤ maxBitsForPartialDisjunctionResult) {index : SkipIndex} (hindex : index.Sound part rpn holds)
    {T : PartialDisjunctionResult} (h : T.Sound part rpn holds) (minMarksForSeek : ℕ) :
    ∃ left T', filterMarksUsingIndex part minMarksForSeek index ranges T = .ok (left, T') ∧ T'.Sound part rpn holds := by
  obtain ⟨hg, haccess⟩ := hindex
  unfold filterMarksUsingIndex
  split
  · exact ⟨ranges, T, rfl, h⟩
  · split
    · rename_i ask htext
      rw [htext] at haccess
      obtain ⟨st', hrun, h'⟩ := exists_textRanges hranges hlength haccess minMarksForSeek { partialResult := T } h
      rw [hrun]
      exact ⟨_, _, rfl, h'⟩
    · rename_i Granule read ask hgranules
      rw [hgranules] at haccess
      obtain ⟨st', hrun, h'⟩ := exists_granuleRanges hsorted hranges hg hlength haccess h minMarksForSeek
      rw [hrun]
      exact ⟨_, _, rfl, h'⟩

theorem exists_filterMarksUsingIndexes (hsorted : ranges.SortedDisjoint)
    (hranges : ∀ range ∈ ranges, part.Contains range) (hlength : rpn.length ≤ maxBitsForPartialDisjunctionResult)
    {indexes : List SkipIndex} (hindexes : ∀ index ∈ indexes, index.Sound part rpn holds) (minMarksForSeek : ℕ) :
    ∃ T, filterMarksUsingIndexes part minMarksForSeek ranges indexes = .ok T ∧ T.Sound part rpn holds := by
  refine Loop.exists_foldlM_of_mem (fun index hindex T hT => ?_) (part.initialPartialResult_sound rpn holds)
  obtain ⟨left, T', hrun, hT'⟩ := exists_filterMarksUsingIndex hsorted hranges hlength (hindexes index hindex) hT minMarksForSeek
  exact ⟨T', by rw [hrun]; rfl, hT'⟩

theorem exists_evalTemplate (hrpn : IsTemplate rpn) (hlength : rpn.length ≤ maxBitsForPartialDisjunctionResult)
    {T : PartialDisjunctionResult} (h : T.Sound part rpn holds) {mark : ℕ} (hmark : mark < part.getMarksCountWithoutFinal)
    (rpnText : String) :
    ∃ value, evalTemplate rpnText T rpn mark = .ok value ∧
      ∀ row, part.RowOfMark mark row → Satisfies rpn (fun position => holds position row) → value = true := by
  obtain ⟨tokens, htokens, hwell⟩ := hrpn
  obtain ⟨value, hvalue⟩ := hwell.exists_eval (oneSided (T.cell mark))
  refine ⟨value, evalTemplate_eq_ok (fun p hp => h.bit_lt hmark (lt_of_lt_of_le hp hlength)) htokens hvalue, ?_⟩
  intro row hrow hsat
  have htrue := oneSided_of_satisfies
    (fun position hunknown hfalse => h.bits mark position hunknown hfalse row hrow) htokens hsat
  exact Option.some.inj (hvalue.symm.trans htrue)

/-- What merging found among the marks before `mark`. -/
structure Merged (part : PartMarks) (rpn : List RPNFunction) (holds : ℕ → ℕ → Prop) (minMarksForSeek : ℕ) (all : MarkRanges)
    (rest : List ℕ) (res : MarkRanges) : Prop where
  found : ∀ mark ∈ rest, MarkRanges.Found mark res
  sortedDisjoint : res.SortedDisjoint
  keeps : ∀ mark row, all.Covers mark → mark ∉ rest → part.RowOfMark mark row →
    Satisfies rpn (fun position => holds position row) → res.Covers mark
  only : minMarksForSeek = 0 → ∀ mark, res.Covers mark → all.Covers mark

/-- **Nothing is lost**: after any indexes with sound reports have run on the same sorted disjoint
ranges, merging does not throw, returns sorted disjoint ranges, keeps every mark with a row that
satisfies the formula of the template and, when no gap is read over, adds no mark. -/
theorem mergePartialResultsForDisjunctions_keeps (hrpn : IsTemplate rpn)
    (hlength : rpn.length ≤ maxBitsForPartialDisjunctionResult) (hsorted : ranges.SortedDisjoint)
    (hranges : ∀ range ∈ ranges, part.Contains range) {indexes : List SkipIndex}
    (hindexes : ∀ index ∈ indexes, index.Sound part rpn holds) (minMarksForSeek : ℕ) (rpnText : String) :
    ∃ T res, filterMarksUsingIndexes part minMarksForSeek ranges indexes = .ok T ∧
      mergePartialResultsForDisjunctions rpnText T minMarksForSeek rpn ranges = .ok res ∧ res.SortedDisjoint ∧
      (∀ mark row, ranges.Covers mark → part.RowOfMark mark row →
        Satisfies rpn (fun position => holds position row) → res.Covers mark) ∧
      (minMarksForSeek = 0 → ∀ mark, res.Covers mark → ranges.Covers mark) := by
  obtain ⟨T, hfilter, hT⟩ := exists_filterMarksUsingIndexes hsorted hranges hlength hindexes minMarksForSeek
  have hlt : ∀ mark, ranges.Covers mark → mark < part.getMarksCountWithoutFinal := by
    rintro mark ⟨range, hrange, -, hend⟩
    exact lt_of_lt_of_le hend (hranges range hrange).2
  have hstart : Merged part rpn holds minMarksForSeek ranges ranges.marks [] := by
    refine ⟨fun _ _ => ⟨nofun, .nil, nofun⟩, ⟨nofun, .nil⟩, ?_, fun _ mark ⟨_, hmem, _⟩ => nomatch hmem⟩
    exact fun mark row hcovers hnot => absurd (MarkRanges.mem_marks.2 hcovers) hnot
  obtain ⟨res, hrun, -, -, hres⟩ := Loop.exists_foldlM (f := mergeMark rpnText T minMarksForSeek rpn)
    (I := fun rest res => (rest.Pairwise (· < ·)) ∧ (∀ mark ∈ rest, ranges.Covers mark) ∧
      Merged part rpn holds minMarksForSeek ranges rest res)
    (fun mark rest res ⟨hpairwise, hcovers, hres⟩ => by
      obtain ⟨hafter, hpairwise⟩ := List.pairwise_cons.1 hpairwise
      have hmark := hcovers mark List.mem_cons_self
      have hcovers' := fun m hm => hcovers m (List.mem_cons_of_mem mark hm)
      obtain ⟨value, hvalue, htrue⟩ := exists_evalTemplate hrpn hlength hT (hlt mark hmark) rpnText
      unfold mergeMark
      rw [hvalue]
      refine ⟨_, rfl, hpairwise, hcovers', ?_⟩
      obtain ⟨hfound, hcover, honly⟩ := (hres.found mark List.mem_cons_self).pushRange
        (show mark ≤ (MarkRange.mk mark (mark + 1)).beginMark from le_rfl) (Nat.lt_succ_self mark)
        ((hlt mark hmark).trans part.marks_lt) minMarksForSeek
      cases value with
      | true =>
        rw [if_pos rfl]
        refine ⟨fun m hm => hfound.mono (hafter m hm), hfound.sortedDisjoint, fun m row hm hnot hrow hsat => ?_,
          fun hzero m hm => ?_⟩
        · by_cases heq : m = mark
          · exact hcover m (Or.inr ⟨heq.ge, Nat.lt_succ_of_le heq.le⟩)
          · exact hcover m (Or.inl (hres.keeps m row hm (fun hmem => (List.mem_cons.1 hmem).elim heq hnot) hrow hsat))
        · rcases honly hzero m hm with hm | ⟨hge, hlt⟩
          · exact hres.only hzero m hm
          · rwa [show m = mark from le_antisymm (Nat.le_of_lt_succ hlt) hge]
      | false =>
        rw [if_neg Bool.false_ne_true]
        refine ⟨fun m hm => hres.found m (List.mem_cons_of_mem _ hm), hres.sortedDisjoint,
          fun m row hm hnot hrow hsat => ?_, hres.only⟩
        by_cases heq : m = mark
        · exact absurd (htrue row (heq ▸ hrow) hsat) Bool.false_ne_true
        · exact hres.keeps m row hm (fun hmem => (List.mem_cons.1 hmem).elim heq hnot) hrow hsat)
    ⟨hsorted.pairwise_marks, fun mark hmark => MarkRanges.mem_marks.1 hmark, hstart⟩
  refine ⟨T, res, hfilter, ?_, hres.sortedDisjoint, fun mark row hm => hres.keeps mark row hm List.not_mem_nil, hres.only⟩
  unfold mergePartialResultsForDisjunctions
  rw [Loop.foldlM_flatMap]
  exact hrun

end Indexes

/-- Four marks of two rows. -/
def twoRowMarks : PartMarks := ⟨4, fun mark => 2 * mark, by norm_num⟩

/-- An index on the first atom, with two marks a granule, and a text index on the second one. -/
def twoIndexes : List SkipIndex :=
  [⟨true, 2, .granules ℕ id fun i => ([⟨0, i == 1, false⟩], i == 1)⟩, ⟨true, 1, .text fun _ => ([⟨1, false, false⟩], false)⟩]

/-- The first atom holds on row 5, the second one nowhere. -/
def rowFive (position row : ℕ) : Prop := position = 0 ∧ row = 5

theorem twoIndexes_sound : ∀ index ∈ twoIndexes, index.Sound twoRowMarks [.functionUnknown, .functionUnknown, .functionOr] rowFive := by
  intro index hindex
  rcases List.mem_cons.1 hindex with rfl | hindex
  · refine ⟨by decide, fun indexMark report hreport _ => ?_⟩
    obtain rfl := List.mem_singleton.1 hreport
    refine ⟨Nat.zero_lt_succ 2, fun _ hfalse row hrow hholds => ?_⟩
    obtain ⟨mark, hmark, hbegin, hend⟩ := hrow
    have hindexMark : indexMark ≠ 1 := fun heq => by simp [heq] at hfalse
    obtain ⟨-, rfl⟩ := hholds
    dsimp only [twoRowMarks] at hmark hbegin hend
    omega
  · obtain rfl := List.mem_singleton.1 hindex
    refine ⟨by decide, fun rows report hreport _ => ?_⟩
    obtain rfl := List.mem_singleton.1 hreport
    exact ⟨by decide, fun _ _ row _ hholds => Nat.one_ne_zero hholds.1⟩

theorem mergePartialResultsForDisjunctions_keeps_rowFive :
    ∃ T res, filterMarksUsingIndexes twoRowMarks 0 [⟨0, 1⟩, ⟨2, 4⟩] twoIndexes = .ok T ∧
      mergePartialResultsForDisjunctions "" T 0 [.functionUnknown, .functionUnknown, .functionOr] [⟨0, 1⟩, ⟨2, 4⟩] = .ok res ∧
      res.SortedDisjoint ∧ res.Covers 2 := by
  have hrpn : IsTemplate [.functionUnknown, .functionUnknown, .functionOr] := ⟨_, rfl, by decide⟩
  have hsorted : MarkRanges.SortedDisjoint [⟨0, 1⟩, ⟨2, 4⟩] := ⟨by decide, by decide⟩
  have hranges : ∀ range ∈ [⟨0, 1⟩, ⟨2, 4⟩], twoRowMarks.Contains range := by
    unfold PartMarks.Contains
    decide
  obtain ⟨T, res, hfilter, hmerge, hsorted, hkeeps, -⟩ :=
    mergePartialResultsForDisjunctions_keeps hrpn (by decide) hsorted hranges twoIndexes_sound 0 ""
  exact ⟨T, res, hfilter, hmerge, hsorted, hkeeps 2 5 ⟨⟨2, 4⟩, by decide⟩ ⟨by decide, by decide⟩
    ⟨_, rfl, _, rfl, Or.inr ⟨rfl, rfl⟩⟩⟩

end MergeTree
