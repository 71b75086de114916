import MergeTree.Lib.Loops
import MergeTree.Spec.KeyCondition

/-!
# Key conditions are sound

The image of a range under a chain of functions contains the images of its fields
(`applyChain_contains`), so the mask of every atom covers the values the atom may have
(`exists_atomMask`), and the mask of a condition those of the condition
(`exists_checkInHyperrectangle`). The hyperrectangles of `forAnyHyperrectangle` cover all
tuples between the bounds, whatever is left in the hyperrectangle by the parts before
(`exists_forAnyHyperrectangle`).
-/

namespace MergeTree

variable {F D : Type} [LinearOrder F] [BoundedOrder F]

/-! ## Ranges and functions -/

theorem isNullField_iff {x : F} : isNullField x = true ↔ x = ⊥ ∨ x = ⊤ := decide_eq_true_iff

theorem Range.contains_top {range : Range F} :
    range.Contains ⊤ ↔ range.right = ⊤ ∧ range.rightIncluded = true ∨ range.left = ⊥ ∧ range.leftIncluded = true := by
  unfold Range.Contains
  rw [if_pos rfl]

theorem Range.contains_value {range : Range F} {x : F} (hx : x ≠ ⊤) :
    range.Contains x ↔ (range.left < x ∨ range.left = x ∧ range.leftIncluded = true) ∧
      (x < range.right ∨ x = range.right ∧ range.rightIncluded = true) := by
  unfold Range.Contains
  rw [if_neg hx]

theorem Range.contains_point (x : F) : Range.Contains ⟨x, true, x, true⟩ x := by
  by_cases hx : x = ⊤
  · rw [hx, Range.contains_top]
    exact Or.inl ⟨rfl, rfl⟩
  · rw [Range.contains_value hx]
    exact ⟨Or.inr ⟨rfl, rfl⟩, Or.inr ⟨rfl, rfl⟩⟩

theorem Range.Contains.bounds {range : Range F} {x : F} (h : range.Contains x) (hx : x ≠ ⊤) :
    range.left ≤ x ∧ x ≤ range.right := by
  obtain ⟨hleft, hright⟩ := (Range.contains_value hx).1 h
  exact ⟨hleft.elim le_of_lt fun heq => heq.1.le, hright.elim le_of_lt fun heq => heq.1.le⟩

theorem FunctionBase.valueAt_ne_bot {func : FunctionBase F D} {currentType : D} (h : ∀ x, func.applyFunction currentType x ≠ ⊥)
    {x : F} (hx : x ≠ ⊥) : func.valueAt currentType x ≠ ⊥ := by
  unfold valueAt
  split
  · exact hx
  · exact h x

theorem FunctionBase.valueAt_top {func : FunctionBase F D} {currentType : D} : func.valueAt currentType ⊤ = ⊤ := by
  unfold valueAt
  rw [if_pos (isNullField_iff.2 (Or.inr rfl))]

theorem FunctionBase.valueAt_value {func : FunctionBase F D} {currentType : D} {x : F} (hbot : x ≠ ⊥) (htop : x ≠ ⊤) :
    func.valueAt currentType x = func.applyFunction currentType x := by
  unfold valueAt
  rw [if_neg fun h => (isNullField_iff.1 h).elim hbot htop]

section Chain

variable {ops : RangeOps F} {func : FunctionBase F D} {currentType : D} {range range' : Range F} {x : F}

/-- The range with the function applied to its finite ends, which become included. -/
def FunctionBase.image (func : FunctionBase F D) (currentType : D) (range : Range F) : Range F :=
  ⟨func.valueAt currentType range.left, !isNullField range.left || range.leftIncluded,
    func.valueAt currentType range.right, !isNullField range.right || range.rightIncluded⟩

theorem applyMonotonicFunctionToRange_eq_some {singlePoint : Bool}
    (h : applyMonotonicFunctionToRange ops func currentType singlePoint range = some range') :
    (singlePoint = true ∧ range' = func.image currentType range) ∨
      (singlePoint = false ∧ (func.getMonotonicityForRange currentType range.left range.right).isMonotonic = true ∧
        range' = if (func.getMonotonicityForRange currentType range.left range.right).isPositive then
          func.image currentType range else ops.invert (func.image currentType range)) := by
  have himage : (let keyRange := if isNullField range.left then range
        else { range with left := func.applyFunction currentType range.left, leftIncluded := true }
      if isNullField keyRange.right then keyRange
      else { keyRange with right := func.applyFunction currentType keyRange.right, rightIncluded := true }) =
      func.image currentType range := by
    unfold FunctionBase.image FunctionBase.valueAt
    dsimp only
    cases hleft : isNullField range.left <;> cases hright : isNullField range.right <;> simp [hright]
  unfold applyMonotonicFunctionToRange at h
  dsimp only at h himage
  cases singlePoint with
  | true =>
    left
    simp only [if_true, Bool.not_true, Bool.false_eq_true, if_false, Option.some.injEq] at h
    exact ⟨rfl, h.symm.trans himage⟩
  | false =>
    right
    simp only [Bool.false_eq_true, if_false] at h
    split at h
    · cases h
    · rename_i hmonotonic
      rw [himage, Option.some.injEq] at h
      exact ⟨rfl, by simpa using hmonotonic, h.symm⟩

theorem FunctionBase.image_contains_null (h : range.Contains ⊤) : (func.image currentType range).Contains ⊤ := by
  rw [Range.contains_top] at h ⊢
  unfold image
  rcases h with ⟨hright, hincluded⟩ | ⟨hleft, hincluded⟩
  · left
    rw [hright, hincluded]
    exact ⟨valueAt_top, Bool.or_true _⟩
  · right
    rw [hleft, hincluded]
    refine ⟨?_, Bool.or_true _⟩
    unfold valueAt
    rw [if_pos (isNullField_iff.2 (Or.inl rfl))]

theorem FunctionBase.image_ends (func : FunctionBase F D) (currentType : D) (hx : range.Contains x) (hbot : x ≠ ⊥) (htop : x ≠ ⊤) :
    (range.left = ⊥ ∧ (func.image currentType range).left = ⊥ ∨
      range.left ≠ ⊥ ∧ range.left ≠ ⊤ ∧ (func.image currentType range).left = func.applyFunction currentType range.left ∧
        (func.image currentType range).leftIncluded = true) ∧
    (range.right = ⊤ ∧ (func.image currentType range).right = ⊤ ∨
      range.right ≠ ⊥ ∧ range.right ≠ ⊤ ∧
        (func.image currentType range).right = func.applyFunction currentType range.right ∧
          (func.image currentType range).rightIncluded = true) := by
  obtain ⟨hleft, hright⟩ := hx.bounds htop
  have hlefttop : range.left ≠ ⊤ := fun heq => htop (top_le_iff.1 (heq ▸ hleft))
  have hrightbot : range.right ≠ ⊥ := fun heq => hbot (le_bot_iff.1 (heq ▸ hright))
  unfold image
  constructor
  · by_cases hnull : range.left = ⊥
    · refine Or.inl ⟨hnull, ?_⟩
      unfold valueAt
      rw [if_pos (isNullField_iff.2 (Or.inl hnull))]
      exact hnull
    · refine Or.inr ⟨hnull, hlefttop, valueAt_value hnull hlefttop, ?_⟩
      rw [Bool.eq_false_iff.2 fun h => (isNullField_iff.1 h).elim hnull hlefttop]
      rfl
  · by_cases hnull : range.right = ⊤
    · refine Or.inl ⟨hnull, ?_⟩
      dsimp only
      rw [hnull, valueAt_top]
    · refine Or.inr ⟨hrightbot, hnull, valueAt_value hrightbot hnull, ?_⟩
      rw [Bool.eq_false_iff.2 fun h => (isNullField_iff.1 h).elim hrightbot hnull]
      rfl

theorem FunctionBase.Truthful.applied (htruthful : func.Truthful currentType)
    (hbotFree : ∀ x, func.applyFunction currentType x ≠ ⊥) (hops : ops.Sound)
    (hmonotonic : (func.getMonotonicityForRange currentType range.left range.right).isMonotonic = true)
    (hx : range.Contains x) (hbot : x ≠ ⊥) :
    Range.Contains (if (func.getMonotonicityForRange currentType range.left range.right).isPositive then
      func.image currentType range else ops.invert (func.image currentType range)) (func.valueAt currentType x) := by
  by_cases htop : x = ⊤
  · -- `NULL` stays at an included infinity
    subst htop
    rw [valueAt_top]
    split
    · exact image_contains_null hx
    · exact hops.invert_null _ (image_contains_null hx)
  · obtain ⟨hleft, hright⟩ := hx.bounds htop
    obtain ⟨hends_left, hends_right⟩ := image_ends func currentType hx hbot htop
    have hmono := htruthful range.left range.right hmonotonic
    have hvalue : func.applyFunction currentType x ≠ ⊤ := (hmono x x hbot htop hleft le_rfl hright).1.1
    rw [valueAt_value hbot htop]
    split
    · rename_i hpositive
      rw [Range.contains_value hvalue]
      constructor
      · rcases hends_left with ⟨-, heq⟩ | ⟨hfinite, -, heq, hincluded⟩
        · rw [heq]
          exact Or.inl (bot_lt_iff_ne_bot.2 (hbotFree x))
        · have hle := (hmono range.left x hfinite htop le_rfl hleft hright).2
          rw [if_pos hpositive] at hle
          rw [heq, hincluded]
          exact (lt_or_eq_of_le hle).imp_right fun h => ⟨h, rfl⟩
      · rcases hends_right with ⟨-, heq⟩ | ⟨-, hfinite, heq, hincluded⟩
        · rw [heq]
          exact Or.inl (lt_top_iff_ne_top.2 hvalue)
        · have hle := (hmono x range.right hbot hfinite hleft hright le_rfl).2
          rw [if_pos hpositive] at hle
          rw [heq, hincluded]
          exact (lt_or_eq_of_le hle).imp_right fun h => ⟨h, rfl⟩
    · rename_i hnegative
      refine hops.invert _ _ (hbotFree x) hvalue (fun hne => ?_) (fun hne => ?_)
      · rcases hends_right with ⟨-, heq⟩ | ⟨-, hfinite, heq, hincluded⟩
        · exact absurd heq hne
        · have hle := (hmono x range.right hbot hfinite hleft hright le_rfl).2
          rw [if_neg hnegative] at hle
          rw [heq, hincluded]
          exact (lt_or_eq_of_le hle).imp_right fun h => ⟨h, rfl⟩
      · rcases hends_left with ⟨-, heq⟩ | ⟨hfinite, -, heq, hincluded⟩
        · exact absurd heq hne
        · have hle := (hmono range.left x hfinite htop le_rfl hleft hright).2
          rw [if_neg hnegative] at hle
          rw [heq, hincluded]
          exact (lt_or_eq_of_le hle).imp_right fun h => ⟨h, rfl⟩

theorem FunctionBase.image_point (func : FunctionBase F D) (currentType : D) (x : F) :
    func.image currentType ⟨x, true, x, true⟩ = ⟨func.valueAt currentType x, true, func.valueAt currentType x, true⟩ := by
  unfold image
  simp only [Bool.or_true]

theorem applyMonotonicFunctionToRange_contains {singlePoint : Bool} (hops : ops.Sound)
    (htruthful : singlePoint = false → func.Truthful currentType)
    (hbotFree : ∀ x, func.applyFunction currentType x ≠ ⊥) (hbot : x ≠ ⊥) (hx : range.Contains x)
    (hpoint : singlePoint = true → range = ⟨x, true, x, true⟩)
    (h : applyMonotonicFunctionToRange ops func currentType singlePoint range = some range') :
    range'.Contains (func.valueAt currentType x) ∧
      (singlePoint = true → range' = ⟨func.valueAt currentType x, true, func.valueAt currentType x, true⟩) := by
  rcases applyMonotonicFunctionToRange_eq_some h with ⟨hsingle, hrange'⟩ | ⟨hsingle, hmonotonic, hrange'⟩
  · rw [hpoint hsingle, FunctionBase.image_point] at hrange'
    exact ⟨hrange' ▸ Range.contains_point _, fun _ => hrange'⟩
  · rw [hrange']
    exact ⟨(htruthful hsingle).applied hbotFree hops hmonotonic hx hbot, fun htrue => by rw [hsingle] at htrue; cases htrue⟩

theorem applyChain_contains {singlePoint : Bool} (hops : ops.Sound) : ∀ {functions : List (FunctionBase F D)} {currentType : D}
    {range range' : Range F} {x : F}, TruthfulChain singlePoint functions currentType → x ≠ ⊥ → range.Contains x →
      (singlePoint = true → range = ⟨x, true, x, true⟩) →
        applyMonotonicFunctionsChainToRange ops singlePoint functions currentType range = some range' →
          range'.Contains (chainValue functions currentType x) ∧ chainValue functions currentType x ≠ ⊥ := by
  intro functions
  induction functions with
  | nil =>
    intro currentType range range' x _ hbot hx _ h
    obtain rfl := Option.some.inj h
    exact ⟨hx, hbot⟩
  | cons func functions ih =>
    intro currentType range range' x htruthful hbot hx hpoint h
    obtain ⟨hfirst, hbotFree, hrest⟩ := htruthful
    unfold applyMonotonicFunctionsChainToRange at h
    split at h
    · rename_i keyRange hstep
      obtain ⟨hcontains, hpoint'⟩ := applyMonotonicFunctionToRange_contains hops hfirst hbotFree hbot hx hpoint hstep
      exact ih hrest (FunctionBase.valueAt_ne_bot hbotFree hbot) hcontains hpoint' h
    · cases h

end Chain

/-! ## Masks -/

/-- The mask allows all these values. -/
structure BoolMask.Covers (mask : BoolMask) (s : Set Bool) : Prop where
  true_of_mem : true ∈ s → mask.canBeTrue = true
  false_of_mem : false ∈ s → mask.canBeFalse = true

namespace BoolMask

variable {m m' : BoolMask} {s s' : Set Bool} {p : Prop}

theorem covers_unknown : Covers ⟨true, true⟩ s := ⟨fun _ => rfl, fun _ => rfl⟩

theorem Covers.not (h : m.Covers s) : m.not.Covers (negatedValues s) := ⟨h.false_of_mem, h.true_of_mem⟩

theorem Covers.and (h : m.Covers s) (h' : m'.Covers s') :
    (m.and m').Covers {b | ∃ x ∈ s, ∃ y ∈ s', b = (x && y)} where
  true_of_mem := by
    rintro ⟨x, hx, y, hy, hxy⟩
    obtain ⟨rfl, rfl⟩ := Bool.and_eq_true_iff.1 hxy.symm
    exact Bool.and_eq_true_iff.2 ⟨h.true_of_mem hx, h'.true_of_mem hy⟩
  false_of_mem := by
    rintro ⟨x, hx, y, hy, hxy⟩
    refine Bool.or_eq_true_iff.2 ?_
    rcases Bool.and_eq_false_iff.1 hxy.symm with rfl | rfl
    · exact Or.inl (h.false_of_mem hx)
    · exact Or.inr (h'.false_of_mem hy)

theorem Covers.or (h : m.Covers s) (h' : m'.Covers s') :
    (m.or m').Covers {b | ∃ x ∈ s, ∃ y ∈ s', b = (x || y)} where
  true_of_mem := by
    rintro ⟨x, hx, y, hy, hxy⟩
    refine Bool.or_eq_true_iff.2 ?_
    rcases Bool.or_eq_true_iff.1 hxy.symm with rfl | rfl
    · exact Or.inl (h.true_of_mem hx)
    · exact Or.inr (h'.true_of_mem hy)
  false_of_mem := by
    rintro ⟨x, hx, y, hy, hxy⟩
    obtain ⟨rfl, rfl⟩ := Bool.or_eq_false_iff.1 hxy.symm
    exact Bool.and_eq_true_iff.2 ⟨h.false_of_mem hx, h'.false_of_mem hy⟩

theorem Covers.combine_left (h : m.Covers s) : (combine m m').Covers s where
  true_of_mem hmem := Bool.or_eq_true_iff.2 (Or.inl (h.true_of_mem hmem))
  false_of_mem hmem := Bool.or_eq_true_iff.2 (Or.inl (h.false_of_mem hmem))

theorem Covers.combine_right (h : m'.Covers s) : (combine m m').Covers s where
  true_of_mem hmem := Bool.or_eq_true_iff.2 (Or.inr (h.true_of_mem hmem))
  false_of_mem hmem := Bool.or_eq_true_iff.2 (Or.inr (h.false_of_mem hmem))

theorem covers_of_isComplete (h : m.isComplete = true) : m.Covers s := by
  obtain ⟨htrue, hfalse⟩ := Bool.and_eq_true_iff.1 h
  exact ⟨fun _ => htrue, fun _ => hfalse⟩

end BoolMask

theorem mayExistOnBloomFilter_none (data : BloomFilterData) : mayExistOnBloomFilter data (fun _ => none) = true :=
  List.all_eq_true.2 fun _ _ => rfl

namespace RPNElement

variable {element : RPNElement F D}

omit [LinearOrder F] [BoundedOrder F] in
theorem bloomMask_none (mask : BoolMask) : element.bloomMask (fun _ => none) mask = mask := by
  unfold bloomMask
  split
  · rw [mayExistOnBloomFilter_none]
    split
    · rename_i h
      rw [← h]
    · rfl
  · rfl

omit [LinearOrder F] [BoundedOrder F] in
theorem finishMask_covers (element : RPNElement F D) (mask : BoolMask) (p : Prop) (htrue : p → mask.canBeTrue = true)
    (hfalse : ¬ p → mask.canBeFalse = true) :
    (element.finishMask false mask).Covers (atomValues element.relaxed p) ∧
      (element.finishMask true mask).Covers (negatedValues (atomValues element.relaxed p)) := by
  have hpositive : (element.finishMask false mask).Covers (atomValues element.relaxed p) := by
    unfold finishMask
    dsimp only
    rw [if_neg Bool.false_ne_true]
    by_cases hrelaxed : element.relaxed = true
    · rw [if_pos hrelaxed]
      exact ⟨fun hmem => htrue (hmem.1 rfl), fun _ => rfl⟩
    · rw [if_neg hrelaxed]
      refine ⟨fun hmem => htrue (hmem.1 rfl), fun hmem => hfalse fun hp => ?_⟩
      exact Bool.false_ne_true (hmem.2 (Bool.eq_false_iff.2 hrelaxed) hp)
  exact ⟨hpositive, hpositive.not⟩

end RPNElement

/-! ## Atoms -/

section Atoms

variable {meaning : KeyMeaning F D} {usedKeySize : ℕ} {singlePoint : Bool} {hyperrectangle : Hyperrectangle F}
  {element : RPNElement F D} {t : ℕ → F}

/-- The tuple is a key in the hyperrectangle, and if the key range is a single point, it is that point. -/
structure KeyMeaning.Inside (meaning : KeyMeaning F D) (usedKeySize : ℕ) (singlePoint : Bool)
    (hyperrectangle : Hyperrectangle F) (t : ℕ → F) : Prop where
  key : meaning.IsKey usedKeySize t
  mem : hyperrectangle.Contains t
  point : singlePoint = true → ∀ i < usedKeySize, hyperrectangle[i]? = some (meaning.env.ops.point (t i))

theorem rangeMask_covers (hmeaning : meaning.Sound) {range keyRange : Range F} (hnull : ¬ range.Contains ⊤) {x : F}
    (hx : x ≠ ⊥) (hnan : meaning.env.isNaN x = false) (hmem : keyRange.Contains x) :
    (x ≠ ⊤ ∧ range.Contains x → (rangeMask meaning.env range keyRange).canBeTrue = true) ∧
      (¬ (x ≠ ⊤ ∧ range.Contains x) → (rangeMask meaning.env range keyRange).canBeFalse = true) := by
  have hintersects : x ≠ ⊤ ∧ range.Contains x → meaning.env.ops.intersectsRange range keyRange = true :=
    fun ⟨htop, hrange⟩ => hmeaning.ops.intersects range keyRange x hx htop hrange hmem
  unfold rangeMask
  split
  · rename_i hleft
    refine ⟨fun ⟨htop, _⟩ => ?_, fun _ => rfl⟩
    -- `NaN` is last, so the field would be one too
    rw [hmeaning.nan_last _ _ hleft (hmem.bounds htop).1 htop] at hnan
    cases hnan
  · split
    · exact ⟨hintersects, fun _ => rfl⟩
    · refine ⟨hintersects, fun hnot => ?_⟩
      rw [Bool.not_eq_true', Bool.eq_false_iff]
      intro hcontains
      have hrange := hmeaning.ops.contains range keyRange hcontains x hx hmem
      exact hnot ⟨fun htop => hnull (htop ▸ hrange), hrange⟩

theorem exists_inRangeMask (hmeaning : meaning.Sound) (hlength : hyperrectangle.length = usedKeySize) {keyColumn : ℕ}
    (hcolumn : element.keyColumns = [keyColumn]) (hlt : keyColumn < usedKeySize) (hnull : ¬ element.range.Contains ⊤)
    (htruthful : TruthfulChain singlePoint element.monotonicFunctionsChain (meaning.dataTypes keyColumn)) (negated : Bool) :
    ∃ mask, inRangeMask meaning.env singlePoint meaning.dataTypes (fun _ => none) hyperrectangle element negated = .ok mask ∧
      ∀ t, meaning.Inside usedKeySize singlePoint hyperrectangle t → element.NotNaN meaning t →
        mask.Covers (if negated then negatedValues (atomValues element.relaxed (element.InRange meaning t))
          else atomValues element.relaxed (element.InRange meaning t)) := by
  have hget := List.getElem?_eq_getElem (hlength ▸ hlt : keyColumn < hyperrectangle.length)
  unfold inRangeMask RPNElement.getKeyColumn
  rw [hcolumn]
  simp only [bind, Except.bind, hget]
  split
  · exact ⟨_, rfl, fun _ _ _ => BoolMask.covers_unknown⟩
  · rename_i keyRange hchain
    refine ⟨_, rfl, fun t ht hnan => ?_⟩
    obtain ⟨hmem, hbot⟩ := applyChain_contains hmeaning.ops htruthful (ht.key keyColumn hlt).1 (ht.mem _ _ hget)
      (fun hsingle => by
        have hpoint := ht.point hsingle keyColumn hlt
        rw [hget, Option.some.injEq, hmeaning.ops.point] at hpoint
        exact hpoint) hchain
    have hmask := rangeMask_covers hmeaning hnull hbot (hnan keyColumn hcolumn) hmem
    have hatom : element.InRange meaning t ↔
        chainValue element.monotonicFunctionsChain (meaning.dataTypes keyColumn) (t keyColumn) ≠ ⊤ ∧
          element.range.Contains (chainValue element.monotonicFunctionsChain (meaning.dataTypes keyColumn) (t keyColumn)) := by
      constructor
      · rintro ⟨k, x, hk, rfl, htop, -, hrange⟩
        rw [hcolumn, List.cons.injEq] at hk
        obtain ⟨rfl, -⟩ := hk
        exact ⟨htop, hrange⟩
      · exact fun ⟨htop, hrange⟩ => ⟨keyColumn, _, hcolumn, rfl, htop, hnan keyColumn hcolumn, hrange⟩
    rw [RPNElement.bloomMask_none, ite_self]
    obtain ⟨hpositive, hnegative⟩ := RPNElement.finishMask_covers element _ (element.InRange meaning t)
      (fun h => hmask.1 (hatom.1 h)) (fun h => hmask.2 fun h' => h (hatom.2 h'))
    cases negated with
    | false => exact hpositive
    | true => exact hnegative

theorem exists_isNullMask (hmeaning : meaning.Sound) (hlength : hyperrectangle.length = usedKeySize) {keyColumn : ℕ}
    (hcolumn : element.keyColumns = [keyColumn]) (hlt : keyColumn < usedKeySize)
    (hrange : ∀ x, x ≠ ⊥ → (element.range.Contains x ↔ x ≠ ⊤)) (singlePoint negated : Bool) :
    ∃ mask, isNullMask meaning.env hyperrectangle element negated = .ok mask ∧
      ∀ t, meaning.Inside usedKeySize singlePoint hyperrectangle t →
        mask.Covers (if negated then negatedValues (atomValues element.relaxed (element.IsNotNull t))
          else atomValues element.relaxed (element.IsNotNull t)) := by
  have hget := List.getElem?_eq_getElem (hlength ▸ hlt : keyColumn < hyperrectangle.length)
  unfold isNullMask RPNElement.getKeyColumn
  rw [hcolumn]
  simp only [bind, Except.bind, hget]
  refine ⟨_, rfl, fun t ht => ?_⟩
  have hbot := (ht.key keyColumn hlt).1
  have hmem := ht.mem _ _ hget
  have hatom : element.IsNotNull t ↔ t keyColumn ≠ ⊤ := by
    constructor
    · rintro ⟨k, hk, htop⟩
      rw [hcolumn, List.cons.injEq] at hk
      exact hk.1 ▸ htop
    · exact fun htop => ⟨keyColumn, hcolumn, htop⟩
  obtain ⟨hpositive, hnegative⟩ := RPNElement.finishMask_covers element
    ⟨meaning.env.ops.intersectsRange element.range hyperrectangle[keyColumn],
      !meaning.env.ops.containsRange element.range hyperrectangle[keyColumn]⟩ (element.IsNotNull t)
    (fun h => hmeaning.ops.intersects _ _ _ hbot (hatom.1 h) ((hrange _ hbot).2 (hatom.1 h)) hmem)
    (fun h => by
      rw [Bool.not_eq_true', Bool.eq_false_iff]
      intro hcontains
      exact h (hatom.2 ((hrange _ hbot).1 (hmeaning.ops.contains _ _ hcontains _ hbot hmem))))
  cases negated with
  | false => exact hpositive
  | true => exact hnegative

theorem exists_inSetMask (hlength : hyperrectangle.length = usedKeySize) {setIndex : SetIndex F D}
    (hset : element.setIndex = some setIndex) (hsound : setIndex.Sound meaning usedKeySize singlePoint) (negated : Bool) :
    ∃ mask, inSetMask singlePoint meaning.dataTypes (fun _ => none) hyperrectangle element negated = .ok mask ∧
      ∀ t, meaning.Inside usedKeySize singlePoint hyperrectangle t →
        mask.Covers (if negated then negatedValues (atomValues element.relaxed (element.InSet meaning t))
          else atomValues element.relaxed (element.InSet meaning t)) := by
  unfold inSetMask
  rw [hset]
  refine ⟨_, rfl, fun t ht => ?_⟩
  have hatom : element.InSet meaning t ↔ meaning.inSet setIndex t := by
    constructor
    · rintro ⟨s, hs, hmem⟩
      rw [hset, Option.some.injEq] at hs
      exact hs ▸ hmem
    · exact fun hmem => ⟨setIndex, hset, hmem⟩
  obtain ⟨htrue, hfalse⟩ := hsound hyperrectangle t hlength ht.key ht.mem ht.point
  rw [RPNElement.bloomMask_none]
  obtain ⟨hpositive, hnegative⟩ := RPNElement.finishMask_covers element _ (element.InSet meaning t)
    (fun h => htrue (hatom.1 h)) (fun h => hfalse fun h' => h (hatom.2 h'))
  cases negated with
  | false => exact hpositive
  | true => exact hnegative

theorem exists_atomMask (hmeaning : meaning.Sound) (hlength : hyperrectangle.length = usedKeySize)
    (hwell : element.WellFormed meaning usedKeySize singlePoint) (htoken : element.token = .operand element) :
    ∃ mask, atomMask meaning.env singlePoint meaning.dataTypes (fun _ => none) hyperrectangle element = .ok mask ∧
      ∀ t, meaning.Inside usedKeySize singlePoint hyperrectangle t → element.NotNaN meaning t →
        mask.Covers (element.possibleValues meaning t) := by
  unfold atomMask RPNElement.possibleValues
  unfold RPNElement.WellFormed at hwell
  unfold RPNElement.token at htoken
  by_cases hcurve : element.argumentNumOfSpaceFillingCurve.isSome = true
  · simp only [hcurve, if_true]
    exact ⟨_, rfl, fun _ _ _ => BoolMask.covers_unknown⟩
  · have hwell := hwell.resolve_left hcurve
    simp only [hcurve] at htoken ⊢
    cases hfunction : element.function with
    | functionInRange =>
      rw [hfunction] at hwell
      obtain ⟨hnull, k, hlt, hcolumn, htruthful⟩ := hwell
      exact exists_inRangeMask hmeaning hlength hcolumn hlt hnull htruthful false
    | functionNotInRange =>
      rw [hfunction] at hwell
      obtain ⟨hnull, k, hlt, hcolumn, htruthful⟩ := hwell
      exact exists_inRangeMask hmeaning hlength hcolumn hlt hnull htruthful true
    | functionIsNotNull =>
      rw [hfunction] at hwell
      obtain ⟨hrange, k, hlt, hcolumn⟩ := hwell
      obtain ⟨mask, hmask, hcovers⟩ := exists_isNullMask hmeaning hlength hcolumn hlt hrange singlePoint false
      exact ⟨mask, hmask, fun t ht _ => hcovers t ht⟩
    | functionIsNull =>
      rw [hfunction] at hwell
      obtain ⟨hrange, k, hlt, hcolumn⟩ := hwell
      obtain ⟨mask, hmask, hcovers⟩ := exists_isNullMask hmeaning hlength hcolumn hlt hrange singlePoint true
      exact ⟨mask, hmask, fun t ht _ => hcovers t ht⟩
    | functionInSet =>
      rw [hfunction] at hwell
      obtain ⟨setIndex, hset, hsound⟩ := hwell
      obtain ⟨mask, hmask, hcovers⟩ := exists_inSetMask hlength hset hsound false
      exact ⟨mask, hmask, fun t ht _ => hcovers t ht⟩
    | functionNotInSet =>
      rw [hfunction] at hwell
      obtain ⟨setIndex, hset, hsound⟩ := hwell
      obtain ⟨mask, hmask, hcovers⟩ := exists_inSetMask hlength hset hsound true
      exact ⟨mask, hmask, fun t ht _ => hcovers t ht⟩
    | functionUnknown => exact ⟨_, rfl, fun _ _ _ => BoolMask.covers_unknown⟩
    | alwaysTrue => exact ⟨_, rfl, fun _ _ _ => ⟨fun _ => rfl, fun h => absurd h (by simp)⟩⟩
    | alwaysFalse => exact ⟨_, rfl, fun _ _ _ => ⟨fun h => absurd h (by simp), fun _ => rfl⟩⟩
    | functionArgsInHyperrectangle =>
      rw [hfunction] at hwell
      exact hwell.elim
    | functionPointInPolygon =>
      rw [hfunction] at hwell
      exact hwell.elim
    | functionNot =>
      rw [hfunction] at htoken
      cases htoken
    | functionAnd =>
      rw [hfunction] at htoken
      cases htoken
    | functionOr =>
      rw [hfunction] at htoken
      cases htoken

/-! ## Conditions on a hyperrectangle -/

/-- The masks of the operands and the operators of a condition. -/
def elementMasks (env : KeyEnvironment F D) (singlePoint : Bool) (dataTypes : ℕ → D) (filters : ColumnBloomFilters)
    (hyperrectangle : Hyperrectangle F) : Postfix.Algebra (RPNElement F D) Unit RPNOperator BoolMask where
  operand element :=
    match atomMask env singlePoint dataTypes filters hyperrectangle element with
    | .ok mask => mask
    | .error _ => ⟨true, true⟩
  unary _ := BoolMask.not
  binary
    | .and => BoolMask.and
    | .or => BoolMask.or

/-- The element does not throw: an operator does not, and an operand has a mask. -/
def RPNElement.Evaluates (env : KeyEnvironment F D) (singlePoint : Bool) (dataTypes : ℕ → D) (filters : ColumnBloomFilters)
    (hyperrectangle : Hyperrectangle F) (element : RPNElement F D) : Prop :=
  element.token = .operand element → ∃ mask, atomMask env singlePoint dataTypes filters hyperrectangle element = .ok mask

omit [LinearOrder F] [BoundedOrder F] in
theorem eq_of_token_operand {element' : RPNElement F D} (h : element.token = .operand element') : element' = element := by
  unfold RPNElement.token at h
  split at h
  · cases h
    rfl
  · split at h <;> cases h
    rfl

theorem evalRPNElement_eq_ok {env : KeyEnvironment F D} {dataTypes : ℕ → D} {filters : ColumnBloomFilters}
    (heval : element.Evaluates env singlePoint dataTypes filters hyperrectangle) {stack stack' : List BoolMask}
    (hstep : (elementMasks env singlePoint dataTypes filters hyperrectangle).step stack element.token = some stack') :
    evalRPNElement env singlePoint dataTypes filters hyperrectangle stack element = .ok stack' := by
  cases htoken : element.token with
  | operand element' =>
    obtain rfl := eq_of_token_operand htoken
    obtain ⟨mask, hmask⟩ := heval htoken
    have hpush : (do return (← atomMask env singlePoint dataTypes filters hyperrectangle element') :: stack :
        Except String (List BoolMask)) = .ok stack' := by
      rw [htoken] at hstep
      obtain rfl := Option.some.inj hstep
      simp only [elementMasks, hmask]
      rfl
    unfold RPNElement.token at htoken
    unfold evalRPNElement
    by_cases hcurve : element'.argumentNumOfSpaceFillingCurve.isSome = true
    · have hatom : atomMask env singlePoint dataTypes filters hyperrectangle element' = .ok ⟨true, true⟩ := by
        unfold atomMask
        rw [if_pos hcurve]
      rw [hatom] at hpush
      rw [if_pos hcurve]
      exact hpush
    · rw [if_neg hcurve] at htoken ⊢
      split
      · rename_i hfunction
        rw [hfunction] at htoken
        cases htoken
      · rename_i hfunction
        rw [hfunction] at htoken
        cases htoken
      · rename_i hfunction
        rw [hfunction] at htoken
        cases htoken
      · exact hpush
  | unary u =>
    rw [htoken] at hstep
    unfold RPNElement.token at htoken
    split at htoken
    · cases htoken
    · rename_i hcurve
      split at htoken <;> cases htoken
      rename_i hfunction
      match stack, hstep with
      | mask :: rest, hstep =>
        obtain rfl := Option.some.inj hstep
        unfold evalRPNElement
        rw [if_neg hcurve, hfunction]
        rfl
  | binary b =>
    rw [htoken] at hstep
    unfold RPNElement.token at htoken
    split at htoken
    · cases htoken
    · rename_i hcurve
      split at htoken <;> cases htoken
      all_goals
        rename_i hfunction
        match stack, hstep with
        | x :: y :: rest, hstep =>
          obtain rfl := Option.some.inj hstep
          unfold evalRPNElement
          rw [if_neg hcurve, hfunction]
          rfl

theorem foldlM_evalRPNElement {env : KeyEnvironment F D} {dataTypes : ℕ → D} {filters : ColumnBloomFilters} :
    ∀ {rpn : List (RPNElement F D)} {stack stack' : List BoolMask},
      (∀ element ∈ rpn, element.Evaluates env singlePoint dataTypes filters hyperrectangle) →
        (elementMasks env singlePoint dataTypes filters hyperrectangle).run (rpn.map RPNElement.token) stack = some stack' →
          rpn.foldlM (evalRPNElement env singlePoint dataTypes filters hyperrectangle) stack = .ok stack' := by
  intro rpn
  induction rpn with
  | nil =>
    intro stack stack' _ hrun
    obtain rfl := Option.some.inj hrun
    rfl
  | cons element rpn ih =>
    intro stack stack' heval hrun
    rw [List.map_cons, Postfix.Algebra.run_cons] at hrun
    obtain ⟨s₁, hstep, hrun⟩ := Option.bind_eq_some_iff.1 hrun
    rw [List.foldlM_cons, evalRPNElement_eq_ok (heval element List.mem_cons_self) hstep]
    exact ih (fun e he => heval e (List.mem_cons_of_mem _ he)) hrun

theorem RPNElement.WellFormed.evaluates (hmeaning : meaning.Sound) (hlength : hyperrectangle.length = usedKeySize)
    (hwell : element.WellFormed meaning usedKeySize singlePoint) :
    element.Evaluates meaning.env singlePoint meaning.dataTypes (fun _ => none) hyperrectangle := fun htoken => by
  obtain ⟨mask, hmask, -⟩ := exists_atomMask hmeaning hlength hwell htoken
  exact ⟨mask, hmask⟩

/-- The mask of a condition covers the values it may have at any tuple of the hyperrectangle. -/
theorem exists_checkInHyperrectangle (hmeaning : meaning.Sound) (hlength : hyperrectangle.length = usedKeySize)
    {condition : KeyCondition F D} (hwell : condition.WellFormed meaning usedKeySize) :
    ∃ mask, condition.checkInHyperrectangle meaning.env meaning.dataTypes (fun _ => none) hyperrectangle = .ok mask ∧
      ∀ t, meaning.Inside usedKeySize condition.singlePoint hyperrectangle t →
        (∀ element ∈ condition.rpn, element.NotNaN meaning t) → mask.Covers {value | condition.MayBe meaning t value} := by
  obtain ⟨mask, hmask⟩ := hwell.leavesOne.exists_eval
    (elementMasks meaning.env condition.singlePoint meaning.dataTypes (fun _ => none) hyperrectangle)
  refine ⟨mask, ?_, fun t ht hnan => ?_⟩
  · unfold KeyCondition.checkInHyperrectangle
    rw [foldlM_evalRPNElement (fun element hmem => (hwell.elements element hmem).evaluates hmeaning hlength)
      ((Postfix.Algebra.eval_eq_some _).1 hmask)]
    rfl
  · obtain ⟨s, hs⟩ := hwell.leavesOne.exists_eval (possibleMeaning meaning t)
    have hrelated : Postfix.Related (fun (s : Set Bool) (m : BoolMask) => m.Covers s) (possibleMeaning meaning t)
        (elementMasks meaning.env condition.singlePoint meaning.dataTypes (fun _ => none) hyperrectangle)
        (condition.rpn.map RPNElement.token) := by
      refine ⟨fun element hmem => ?_, fun _ _ _ h => h.not, fun op _ _ _ _ h h' => ?_⟩
      · obtain ⟨element', hmem', htoken⟩ := List.mem_map.1 hmem
        obtain rfl := eq_of_token_operand htoken
        obtain ⟨m, hm, hcovers⟩ := exists_atomMask hmeaning hlength (hwell.elements element hmem') htoken
        simp only [elementMasks, hm]
        exact hcovers t ht (hnan element hmem')
      · cases op with
        | and => exact h.and h'
        | or => exact h.or h'
    obtain ⟨mask', hmask', hcovers⟩ := hrelated.eval hs
    rw [hmask, Option.some.injEq] at hmask'
    subst hmask'
    have hmem : ∀ value, condition.MayBe meaning t value → value ∈ s := by
      rintro value ⟨s', hs', hvalue⟩
      rw [hs, Option.some.injEq] at hs'
      exact hs' ▸ hvalue
    exact ⟨fun h => hcovers.true_of_mem (hmem true h), fun h => hcovers.false_of_mem (hmem false h)⟩

end Atoms

/-! ## The cut -/

section Cut

variable {meaning : KeyMeaning F D} {n c : ℕ} {leftKeys rightKeys : ℕ → F} {h h' h'' : Hyperrectangle F} {t : ℕ → F}

/-- A part of the cut leaves the columns before `c` as they are. -/
structure Frame (n c : ℕ) (h h' : Hyperrectangle F) : Prop where
  length_eq : h'.length = n
  same : ∀ i < c, h'[i]? = h[i]?

omit [LinearOrder F] [BoundedOrder F] in
theorem Frame.refl (hlength : h.length = n) : Frame n c h h := ⟨hlength, fun _ _ => rfl⟩

omit [LinearOrder F] [BoundedOrder F] in
theorem Frame.trans {c' : ℕ} (h₁ : Frame n c h h') (h₂ : Frame n c' h' h'') (hle : c ≤ c') : Frame n c h h'' :=
  ⟨h₂.length_eq, fun i hi => (h₂.same i (lt_of_lt_of_le hi hle)).trans (h₁.same i hi)⟩

omit [LinearOrder F] [BoundedOrder F] in
theorem Frame.set (hlength : h.length = n) {i : ℕ} (hi : c ≤ i) (range : Range F) : Frame n c h (h.set i range) :=
  ⟨by rw [List.length_set, hlength], fun j hj => List.getElem?_set_ne (by omega)⟩

/-- The columns before `c` contain the tuple. -/
def ContainsBelow (c : ℕ) (h : Hyperrectangle F) (t : ℕ → F) : Prop :=
  ∀ i < c, ∀ range, h[i]? = some range → range.Contains (t i)

theorem ContainsBelow.frame (hbelow : ContainsBelow c h t) (hframe : Frame n c h h') : ContainsBelow c h' t :=
  fun i hi range hget => hbelow i hi range (hframe.same i hi ▸ hget)

theorem ContainsBelow.contains (hbelow : ContainsBelow c h t) (hlength : h.length ≤ c) : h.Contains t :=
  fun i range hget => hbelow i (lt_of_lt_of_le (List.getElem?_eq_some_iff.1 hget).1 hlength) range hget

theorem ContainsBelow.set {range : Range F} (hbelow : ContainsBelow c h t) (hrange : range.Contains (t c)) :
    ContainsBelow (c + 1) (h.set c range) t := by
  intro i hi range' hget
  rcases Nat.lt_succ_iff_lt_or_eq.1 hi with hlt | rfl
  · rw [List.getElem?_set_ne (by omega)] at hget
    exact hbelow i hlt range' hget
  · have hlt : i < h.length := by
      have := (List.getElem?_eq_some_iff.1 hget).1
      rwa [List.length_set] at this
    rw [List.getElem?_set_self hlt, Option.some.injEq] at hget
    exact hget ▸ hrange

/-- The tuple is between the bounds there are, from a column on. -/
structure BetweenKeys (n : ℕ) (leftKeys rightKeys : ℕ → F) (leftBounded rightBounded : Bool) (c : ℕ) (t : ℕ → F) : Prop where
  left : leftBounded = true → LexLe c n leftKeys t
  right : rightBounded = true → LexLe c n t rightKeys

omit [BoundedOrder F] in
/-- After a column where both tuples agree the order is decided by the columns that follow. -/
theorem LexLe.succ {a b : ℕ → F} (hle : LexLe c n a b) (heq : a c = b c) : LexLe (c + 1) n a b := by
  intro j hcj hj hbefore
  refine hle j (by omega) hj fun i hi hij => ?_
  rcases Nat.eq_or_lt_of_le hi with rfl | hlt
  · exact heq
  · exact hbefore i hlt hij

omit [BoundedOrder F] in
theorem LexLe.head {a b : ℕ → F} (hle : LexLe c n a b) (hc : c < n) : a c ≤ b c :=
  hle c le_rfl hc fun i hi hij => absurd hij (by omega)

theorem matchPrefix_spec (hops : meaning.env.ops.Sound) (prefixSize : ℕ) (h : Hyperrectangle F) (hlength : h.length = n)
    (hle : prefixSize ≤ n) :
    Frame n prefixSize h (matchPrefix meaning.env n leftKeys rightKeys prefixSize h).2 ∧
      (matchPrefix meaning.env n leftKeys rightKeys prefixSize h).1 ≤ n ∧
      ∀ t, ContainsBelow prefixSize h t → BetweenKeys n leftKeys rightKeys true true prefixSize t →
        ContainsBelow (matchPrefix meaning.env n leftKeys rightKeys prefixSize h).1
            (matchPrefix meaning.env n leftKeys rightKeys prefixSize h).2 t ∧
          BetweenKeys n leftKeys rightKeys true true (matchPrefix meaning.env n leftKeys rightKeys prefixSize h).1 t := by
  fun_induction matchPrefix meaning.env n leftKeys rightKeys prefixSize h with
  | case1 prefixSize h hlt heq ih =>
    have hset : Frame n prefixSize h (h.set prefixSize (meaning.env.ops.point (leftKeys prefixSize))) :=
      Frame.set hlength le_rfl _
    obtain ⟨hframe, hsize, hbelow⟩ := ih hset.length_eq hlt
    refine ⟨hset.trans hframe (Nat.le_succ _), hsize, fun t ht hbetween => ?_⟩
    -- the field is squeezed between equal bounds
    have hfield : leftKeys prefixSize = t prefixSize :=
      le_antisymm ((hbetween.left rfl).head hlt) (((hbetween.right rfl).head hlt).trans_eq heq.symm)
    refine hbelow t (ht.set ?_) ⟨fun _ => (hbetween.left rfl).succ hfield, fun _ =>
      (hbetween.right rfl).succ (hfield.symm.trans heq)⟩
    rw [hops.point, hfield]
    exact Range.contains_point _
  | case2 prefixSize h hlt hne =>
    exact ⟨Frame.refl hlength, hle, fun t ht hbetween => ⟨ht, hbetween⟩⟩
  | case3 prefixSize h hge =>
    exact ⟨Frame.refl hlength, hle, fun t ht hbetween => ⟨ht, hbetween⟩⟩

theorem skipMatching_spec (hops : meaning.env.ops.Sound) (leftKeys rightKeys : ℕ → F) (leftBounded rightBounded : Bool) (prefixSize : ℕ)
    (h : Hyperrectangle F) (hlength : h.length = n) (hle : prefixSize ≤ n) :
    Frame n prefixSize h (skipMatching meaning.env n leftKeys rightKeys leftBounded rightBounded h prefixSize).2 ∧
      (skipMatching meaning.env n leftKeys rightKeys leftBounded rightBounded h prefixSize).1 ≤ n ∧
      ∀ t, ContainsBelow prefixSize h t → BetweenKeys n leftKeys rightKeys leftBounded rightBounded prefixSize t →
        ContainsBelow (skipMatching meaning.env n leftKeys rightKeys leftBounded rightBounded h prefixSize).1
            (skipMatching meaning.env n leftKeys rightKeys leftBounded rightBounded h prefixSize).2 t ∧
          BetweenKeys n leftKeys rightKeys leftBounded rightBounded
            (skipMatching meaning.env n leftKeys rightKeys leftBounded rightBounded h prefixSize).1 t := by
  unfold skipMatching
  split
  · rename_i hboth
    obtain ⟨rfl, rfl⟩ := Bool.and_eq_true_iff.1 hboth
    exact matchPrefix_spec hops prefixSize h hlength hle
  · exact ⟨Frame.refl hlength, hle, fun t ht hbetween => ⟨ht, hbetween⟩⟩

omit [LinearOrder F] [BoundedOrder F] in
theorem getElem?_foldl_set (f : ℕ → Range F) (k : ℕ) : ∀ (c : ℕ) (h : Hyperrectangle F),
    ((List.range' c k).foldl (fun h i => h.set i (f i)) h).length = h.length ∧
      ∀ i, ((List.range' c k).foldl (fun h i => h.set i (f i)) h)[i]? =
        if c ≤ i ∧ i < c + k ∧ i < h.length then some (f i) else h[i]? := by
  induction k with
  | zero =>
    intro c h
    refine ⟨rfl, fun i => ?_⟩
    rw [if_neg (by omega)]
    rfl
  | succ k ih =>
    intro c h
    rw [List.range'_succ, List.foldl_cons]
    obtain ⟨hlength, hget⟩ := ih (c + 1) (h.set c (f c))
    refine ⟨hlength.trans List.length_set, fun i => ?_⟩
    rw [hget i, List.length_set]
    rcases lt_trichotomy i c with hlt | rfl | hgt
    · rw [if_neg (by omega), if_neg (by omega), List.getElem?_set_ne (by omega)]
    · rw [if_neg (by omega)]
      by_cases hi : i < h.length
      · rw [List.getElem?_set_self hi, if_pos (by omega)]
      · rw [if_neg (by omega), List.getElem?_eq_none (by rw [List.length_set]; omega), List.getElem?_eq_none (by omega)]
    · rw [List.getElem?_set_ne (by omega)]
      by_cases hi : i < c + 1 + k ∧ i < h.length
      · rw [if_pos (by omega), if_pos (by omega)]
      · rw [if_neg (by omega), if_neg (by omega)]

theorem columnUniverse_contains (hops : meaning.env.ops.Sound) (hkey : meaning.IsKey n t) {i : ℕ} (hi : i < n) :
    (columnUniverse meaning.env meaning.dataTypes i).Contains (t i) := by
  obtain ⟨hbot, htop⟩ := hkey i hi
  unfold columnUniverse
  split
  · exact hops.wholeUniverse _ hbot
  · rename_i hnullable
    exact hops.wholeUniverseWithoutNull _ hbot fun h => hnullable (htop h)

theorem freeColumns_spec (hops : meaning.env.ops.Sound) (hlength : h.length = n) :
    Frame n c h (freeColumns meaning.env n meaning.dataTypes c h) ∧
      ∀ t, meaning.IsKey n t → ContainsBelow c h t → (freeColumns meaning.env n meaning.dataTypes c h).Contains t := by
  obtain ⟨hlen, hget⟩ := getElem?_foldl_set (columnUniverse meaning.env meaning.dataTypes) (n - c) c h
  refine ⟨⟨hlen.trans hlength, fun i hi => ?_⟩, fun t hkey hbelow i range hrange => ?_⟩
  · exact (hget i).trans (if_neg (by omega))
  · have hi : i < n := by
      have := (List.getElem?_eq_some_iff.1 hrange).1
      rw [show (freeColumns meaning.env n meaning.dataTypes c h).length = h.length from hlen] at this
      omega
    rcases Nat.lt_or_ge i c with hlt | hge
    · exact hbelow i hlt range ((hget i).trans (if_neg (by omega)) ▸ hrange)
    · have huniverse : (freeColumns meaning.env n meaning.dataTypes c h)[i]? =
          some (columnUniverse meaning.env meaning.dataTypes i) := (hget i).trans (if_pos (by omega))
      rw [huniverse, Option.some.injEq] at hrange
      exact hrange ▸ columnUniverse_contains hops hkey hi

theorem setBounded_spec (hops : meaning.env.ops.Sound) (leftKeys rightKeys : ℕ → F) {leftBounded rightBounded : Bool}
    (hbounded : (leftBounded || rightBounded) = true) (included : Bool) (hlength : h.length = n) :
    Frame n c h (setBounded meaning.env leftKeys rightKeys meaning.dataTypes leftBounded rightBounded included c h) ∧
      ∀ t, t c ≠ ⊥ → (t c = ⊤ → meaning.env.isNullable (meaning.dataTypes c) = true) → ContainsBelow c h t →
        (leftBounded = true → leftKeys c < t c ∨ leftKeys c = t c ∧ included = true) →
        (rightBounded = true → t c < rightKeys c ∨ t c = rightKeys c ∧ included = true) →
          ContainsBelow (c + 1)
            (setBounded meaning.env leftKeys rightKeys meaning.dataTypes leftBounded rightBounded included c h) t := by
  unfold setBounded boundedRange
  cases leftBounded with
  | true =>
    cases rightBounded with
    | true =>
      refine ⟨Frame.set hlength le_rfl _, fun t hbot hnull hbelow hleft hright => hbelow.set ?_⟩
      refine hops.between _ _ _ _ _ hbot ?_
      by_cases htop : t c = ⊤
      · rw [htop, Range.contains_top]
        rcases hright rfl with hlt | ⟨heq, hincluded⟩
        · exact absurd hlt (htop ▸ not_top_lt)
        · exact Or.inl ⟨heq.symm.trans htop, hincluded⟩
      · exact (Range.contains_value htop).2 ⟨hleft rfl, hright rfl⟩
    | false =>
      refine ⟨Frame.set hlength le_rfl _, fun t hbot hnull hbelow hleft _ => hbelow.set ?_⟩
      exact hops.leftBounded _ _ _ _ hbot hnull (hleft rfl)
  | false =>
    cases rightBounded with
    | true =>
      refine ⟨Frame.set hlength le_rfl _, fun t hbot hnull hbelow _ hright => hbelow.set ?_⟩
      exact hops.rightBounded _ _ _ _ hbot hnull (hright rfl)
    | false => cases hbounded

variable {callback : Hyperrectangle F → Except String BoolMask} {s : Set Bool}

omit [LinearOrder F] [BoundedOrder F] in
theorem exists_combineSide (bounded : Bool) (side : Hyperrectangle F → Except String (BoolMask × Hyperrectangle F))
    (st : BoolMask × Hyperrectangle F) {p : Prop} (hlength : st.2.length = n)
    (hside : bounded = true → ∃ mask h', side st.2 = .ok (mask, h') ∧ Frame n c st.2 h' ∧ (p → mask.Covers s)) :
    ∃ st', combineSide bounded side st = .ok st' ∧ Frame n c st.2 st'.2 ∧ (st.1.Covers s → st'.1.Covers s) ∧
      (bounded = true → p → st'.1.Covers s) := by
  unfold combineSide
  cases bounded with
  | false => exact ⟨st, rfl, Frame.refl hlength, id, fun hfalse => by cases hfalse⟩
  | true =>
    obtain ⟨mask, h', hrun, hframe, hcovers⟩ := hside rfl
    rw [if_pos rfl, hrun]
    exact ⟨_, rfl, hframe, BoolMask.Covers.combine_left, fun _ hp => (hcovers hp).combine_right⟩

/-- **The cut covers the tuples between the bounds**, for a callback that never throws and whose masks
cover `s` on every hyperrectangle with the tuple. -/
theorem exists_forAnyHyperrectangle (hops : meaning.env.ops.Sound) (hkey : meaning.IsKey n t)
    (hcallback : ∀ h, h.length = n → ∃ mask, callback h = .ok mask ∧ (h.Contains t → mask.Covers s))
    (leftKeys rightKeys : ℕ → F) (initialMask : BoolMask) :
    ∀ {leftBounded rightBounded : Bool} {h : Hyperrectangle F} {prefixSize : ℕ}, h.length = n → prefixSize ≤ n → (leftBounded || rightBounded) = true →
        ∃ mask h', forAnyHyperrectangle meaning.env n leftKeys rightKeys meaning.dataTypes callback initialMask leftBounded
            rightBounded h prefixSize = .ok (mask, h') ∧ Frame n prefixSize h h' ∧
          (ContainsBelow prefixSize h t ∧ BetweenKeys n leftKeys rightKeys leftBounded rightBounded prefixSize t →
            mask.Covers s) := by
  intro leftBounded rightBounded h prefixSize
  induction hrest : n - prefixSize using Nat.strong_induction_on generalizing leftBounded rightBounded h prefixSize with
  | h rest ih =>
    intro hlength hsize hbounded
    obtain ⟨hmatched, hcolumn, hbelow⟩ := skipMatching_spec hops leftKeys rightKeys leftBounded rightBounded
      prefixSize h hlength hsize
    have hle := le_skipMatching meaning.env n leftKeys rightKeys leftBounded rightBounded h prefixSize
    rw [forAnyHyperrectangle]
    rw [if_neg (by rw [← Bool.not_or, hbounded]; decide)]
    dsimp only
    generalize (skipMatching meaning.env n leftKeys rightKeys leftBounded rightBounded h prefixSize).1 = column at *
    generalize (skipMatching meaning.env n leftKeys rightKeys leftBounded rightBounded h prefixSize).2 = matched at *
    split
    · -- all columns are points
      rename_i hall
      obtain ⟨mask, hmask, hcovers⟩ := hcallback matched hmatched.length_eq
      rw [hmask]
      refine ⟨mask, matched, rfl, hmatched, fun ⟨hcontains, hbetween⟩ => hcovers ?_⟩
      exact (hbelow t hcontains hbetween).1.contains (hmatched.length_eq.trans_le hall)
    · rename_i hlt
      rw [not_le] at hlt
      obtain ⟨hbot, hnull⟩ := hkey column hlt
      split
      · -- the last column is between its bounds
        rename_i hlast
        obtain ⟨hframe, hset⟩ := setBounded_spec (c := column) hops leftKeys rightKeys hbounded
          true hmatched.length_eq
        obtain ⟨mask, hmask, hcovers⟩ := hcallback _ hframe.length_eq
        rw [hmask]
        refine ⟨mask, _, rfl, hmatched.trans hframe hle, fun ⟨hcontains, hbetween⟩ => hcovers ?_⟩
        obtain ⟨hcontains, hbetween⟩ := hbelow t hcontains hbetween
        refine (hset t hbot hnull hcontains (fun hl => ?_) (fun hr => ?_)).contains (hframe.length_eq.trans_le hlast.ge)
        · exact (lt_or_eq_of_le ((hbetween.left hl).head hlt)).imp_right fun heq => ⟨heq, rfl⟩
        · exact (lt_or_eq_of_le ((hbetween.right hr).head hlt)).imp_right fun heq => ⟨heq, rfl⟩
      · rename_i hmore
        have hnext : column + 1 ≤ n := hlt
        obtain ⟨hframe, hset⟩ := setBounded_spec (c := column) hops leftKeys rightKeys hbounded
          false hmatched.length_eq
        obtain ⟨hfree, hinner⟩ := freeColumns_spec (c := column + 1) hops hframe.length_eq
        generalize setBounded meaning.env leftKeys rightKeys meaning.dataTypes leftBounded rightBounded false column
          matched = open_ at *
        generalize freeColumns meaning.env n meaning.dataTypes (column + 1) open_ = inner at *
        have hframe₁ : Frame n column matched inner := hframe.trans hfree (Nat.le_succ column)
        obtain ⟨mask, hmask, hcovers⟩ := hcallback inner hframe₁.length_eq
        rw [hmask]
        simp only [bind, Except.bind]
        split
        · rename_i hcomplete
          exact ⟨_, _, rfl, hmatched.trans hframe₁ hle, fun _ => BoolMask.covers_of_isComplete hcomplete⟩
        · -- the parts next to the bounds, each with a point in this column
          have hside : ∀ (lb rb : Bool) (key : F) (h : Hyperrectangle F), (lb || rb) = true → h.length = n →
              ∃ m h', forAnyHyperrectangle meaning.env n leftKeys rightKeys meaning.dataTypes callback initialMask lb rb
                  (h.set column (meaning.env.ops.point key)) (column + 1) = .ok (m, h') ∧ Frame n column h h' ∧
                (ContainsBelow column h t ∧ key = t column ∧ BetweenKeys n leftKeys rightKeys lb rb (column + 1) t →
                  m.Covers s) := by
            intro lb rb key h hor hlen
            have hpoint : Frame n column h (h.set column (meaning.env.ops.point key)) := Frame.set hlen le_rfl _
            obtain ⟨m, h', hrun, hframe', hcovers'⟩ := ih (n - (column + 1)) (by omega) rfl hpoint.length_eq hnext hor
            refine ⟨m, h', hrun, hpoint.trans hframe' (Nat.le_succ _), fun ⟨hcontains, hfield, hbetween⟩ => ?_⟩
            refine hcovers' ⟨hcontains.set ?_, hbetween⟩
            rw [hops.point, hfield]
            exact Range.contains_point _
          obtain ⟨left, hleft, hframe₂, hkeep₂, hcovers₂⟩ := exists_combineSide leftBounded
            (fun h => forAnyHyperrectangle meaning.env n leftKeys rightKeys meaning.dataTypes callback initialMask true false
              (h.set column (meaning.env.ops.point (leftKeys column))) (column + 1))
            (BoolMask.combine initialMask mask, inner) hframe₁.length_eq fun _ => hside true false (leftKeys column) inner rfl hframe₁.length_eq
          rw [hleft]
          dsimp only
          split
          · rename_i hcomplete
            exact ⟨left.1, left.2, rfl, hmatched.trans (hframe₁.trans hframe₂ le_rfl) hle,
              fun _ => BoolMask.covers_of_isComplete (Bool.and_eq_true_iff.1 hcomplete).2⟩
          · obtain ⟨last, hright, hframe₃, hkeep₃, hcovers₃⟩ := exists_combineSide rightBounded
              (fun h => forAnyHyperrectangle meaning.env n leftKeys rightKeys meaning.dataTypes callback initialMask false
                true (h.set column (meaning.env.ops.point (rightKeys column))) (column + 1))
              left hframe₂.length_eq fun _ => hside false true (rightKeys column) left.2 rfl hframe₂.length_eq
            refine ⟨last.1, last.2, hright, hmatched.trans (hframe₁.trans (hframe₂.trans hframe₃ le_rfl) le_rfl) hle,
              fun ⟨hcontains, hbetween⟩ => ?_⟩
            obtain ⟨hcontains, hbetween⟩ := hbelow t hcontains hbetween
            by_cases hl : leftBounded = true ∧ leftKeys column = t column
            · refine hkeep₃ (hcovers₂ hl.1 ⟨hcontains.frame hframe₁, hl.2, fun _ => ?_, fun hfalse => by cases hfalse⟩)
              exact (hbetween.left hl.1).succ hl.2
            · by_cases hr : rightBounded = true ∧ rightKeys column = t column
              · refine hcovers₃ hr.1 ⟨(hcontains.frame hframe₁).frame hframe₂, hr.2, (fun hfalse => by cases hfalse), fun _ => ?_⟩
                exact (hbetween.right hr.1).succ hr.2.symm
              · -- strictly between the bounds there are
                refine hkeep₃ (hkeep₂ (hcovers (hinner t hkey (hset t hbot hnull hcontains (fun h => ?_) fun h => ?_))).combine_right)
                · exact Or.inl (lt_of_le_of_ne ((hbetween.left h).head hlt) fun heq => hl ⟨h, heq⟩)
                · exact Or.inl (lt_of_le_of_ne ((hbetween.right h).head hlt) fun heq => hr ⟨h, heq.symm⟩)

omit [BoundedOrder F] in
theorem LexLe.eq {a b t : ℕ → F} (hleft : LexLe 0 n a t) (hright : LexLe 0 n t b) (heq : ∀ i < n, a i = b i) :
    ∀ i < n, t i = a i := by
  intro i
  induction i using Nat.strong_induction_on with
  | h i ih =>
    intro hi
    have hbefore : ∀ j, 0 ≤ j → j < i → t j = a j := fun j _ hj => ih j hj (hj.trans hi)
    refine le_antisymm ?_ (hleft i (Nat.zero_le i) hi fun j h0 hj => (hbefore j h0 hj).symm)
    rw [heq i hi]
    exact hright i (Nat.zero_le i) hi fun j h0 hj => (hbefore j h0 hj).trans (heq j (hj.trans hi))

omit [BoundedOrder F] in
theorem matchPrefix_points (env : KeyEnvironment F D) (heq : ∀ i < n, leftKeys i = rightKeys i) (prefixSize : ℕ) (h : Hyperrectangle F)
    (hlength : h.length = n) (hle : prefixSize ≤ n)
    (hbefore : ∀ i < prefixSize, h[i]? = some (env.ops.point (leftKeys i))) :
    (matchPrefix env n leftKeys rightKeys prefixSize h).1 = n ∧
      (matchPrefix env n leftKeys rightKeys prefixSize h).2.length = n ∧
      ∀ i < n, (matchPrefix env n leftKeys rightKeys prefixSize h).2[i]? = some (env.ops.point (leftKeys i)) := by
  fun_induction matchPrefix env n leftKeys rightKeys prefixSize h with
  | case1 prefixSize h hlt heq' ih =>
    refine ih (by rw [List.length_set, hlength]) hlt fun i hi => ?_
    rcases Nat.lt_succ_iff_lt_or_eq.1 hi with hlt' | rfl
    · rw [List.getElem?_set_ne (by omega)]
      exact hbefore i hlt'
    · rw [List.getElem?_set_self (by omega)]
  | case2 prefixSize h hlt hne => exact absurd (heq prefixSize hlt) hne
  | case3 prefixSize h hge =>
    obtain rfl : prefixSize = n := by omega
    exact ⟨rfl, hlength, hbefore⟩

end Cut

/-! ## The analysis -/

namespace KeyCondition

variable {meaning : KeyMeaning F D} {condition : KeyCondition F D} {usedKeySize : ℕ} {leftKeys rightKeys t : ℕ → F}

/-- With any bounds the check of a range does not throw, and it covers the keys between them. -/
theorem exists_checkInRange_keys (hmeaning : meaning.Sound) (hwell : condition.WellFormed meaning usedKeySize)
    (hsingle : condition.singlePoint = false) (hkey : meaning.IsKey usedKeySize t) (leftKeys rightKeys : ℕ → F)
    (initialMask : BoolMask) :
    ∃ mask, condition.checkInRange meaning.env usedKeySize leftKeys rightKeys meaning.dataTypes initialMask = .ok mask ∧
      ((∀ element ∈ condition.rpn, element.NotNaN meaning t) → LexLe 0 usedKeySize leftKeys t → LexLe 0 usedKeySize t rightKeys →
        mask.Covers {value | condition.MayBe meaning t value}) := by
  have hcallback : ∀ h : Hyperrectangle F, h.length = usedKeySize →
      ∃ mask, condition.checkInHyperrectangle meaning.env meaning.dataTypes (fun _ => none) h = .ok mask ∧
        (h.Contains t → mask.Covers {value | (∀ element ∈ condition.rpn, element.NotNaN meaning t) ∧ condition.MayBe meaning t value}) := by
    intro h hlen
    obtain ⟨mask, hmask, hcovers⟩ := exists_checkInHyperrectangle hmeaning hlen hwell
    refine ⟨mask, hmask, fun hmem => ?_⟩
    have hcovers' := hcovers t ⟨hkey, hmem, fun htrue => by rw [hsingle] at htrue; cases htrue⟩
    exact ⟨fun hvalue => (hcovers' hvalue.1).true_of_mem hvalue.2, fun hvalue => (hcovers' hvalue.1).false_of_mem hvalue.2⟩
  have hlength : ((List.range usedKeySize).map (columnUniverse meaning.env meaning.dataTypes)).length = usedKeySize := by
    rw [List.length_map, List.length_range]
  have hbounded : (true || true) = true := rfl
  obtain ⟨mask, h', hrun, -, hcovers⟩ := exists_forAnyHyperrectangle hmeaning.ops hkey hcallback leftKeys rightKeys
    initialMask hlength (Nat.zero_le usedKeySize) hbounded
  unfold checkInRange
  rw [hrun]
  refine ⟨mask, rfl, fun hnan hleft hright => ?_⟩
  have hcovers' := hcovers ⟨fun i hi => absurd hi (Nat.not_lt_zero i), fun _ => hleft, fun _ => hright⟩
  exact ⟨fun hvalue => hcovers'.true_of_mem ⟨hnan, hvalue⟩, fun hvalue => hcovers'.false_of_mem ⟨hnan, hvalue⟩⟩

theorem exists_checkInRange (hmeaning : meaning.Sound) (hwell : condition.WellFormed meaning usedKeySize)
    (hkey : meaning.IsKey usedKeySize t) (hnan : ∀ element ∈ condition.rpn, element.NotNaN meaning t)
    (hleft : LexLe 0 usedKeySize leftKeys t) (hright : LexLe 0 usedKeySize t rightKeys)
    (hpoint : condition.singlePoint = true → ∀ i < usedKeySize, leftKeys i = rightKeys i) (initialMask : BoolMask) :
    ∃ mask, condition.checkInRange meaning.env usedKeySize leftKeys rightKeys meaning.dataTypes initialMask = .ok mask ∧
      mask.Covers {value | condition.MayBe meaning t value} := by
  cases hsingle : condition.singlePoint with
  | false =>
    obtain ⟨mask, hrun, hcovers⟩ := exists_checkInRange_keys hmeaning hwell hsingle hkey leftKeys rightKeys initialMask
    exact ⟨mask, hrun, hcovers hnan hleft hright⟩
  | true =>
    -- the only hyperrectangle is the point
    unfold checkInRange
    have hlength : ((List.range usedKeySize).map (columnUniverse meaning.env meaning.dataTypes)).length = usedKeySize := by
      rw [List.length_map, List.length_range]
    have heq := hpoint hsingle
    have ht := hleft.eq hright heq
    obtain ⟨hcolumn, hlen, hpoints⟩ := matchPrefix_points meaning.env heq 0 _ hlength (Nat.zero_le usedKeySize)
      fun i hi => absurd hi (Nat.not_lt_zero i)
    obtain ⟨mask, hmask, hcovers⟩ := exists_checkInHyperrectangle hmeaning hlen hwell
    have hskip : skipMatching meaning.env usedKeySize leftKeys rightKeys true true
        ((List.range usedKeySize).map (columnUniverse meaning.env meaning.dataTypes)) 0 =
      matchPrefix meaning.env usedKeySize leftKeys rightKeys 0
        ((List.range usedKeySize).map (columnUniverse meaning.env meaning.dataTypes)) := rfl
    rw [forAnyHyperrectangle]
    simp only [Bool.not_true, Bool.and_self, Bool.false_eq_true, if_false, hskip, hcolumn, le_refl, if_true, hmask]
    refine ⟨mask, rfl, hcovers t ⟨hkey, fun i range hrange => ?_, fun _ i hi => ?_⟩ hnan⟩
    · have hi : i < usedKeySize := hlen ▸ (List.getElem?_eq_some_iff.1 hrange).1
      rw [hpoints i hi, Option.some.injEq] at hrange
      rw [← hrange, hmeaning.ops.point, ht i hi]
      exact Range.contains_point _
    · rw [hpoints i hi, ht i hi]

/-- **The analysis of a key range is sound**: at every key between the bounds, what the condition may be is
what `checkInRange` reports it can be, with any initial mask, and `mayBeTrueInRange` with it. -/
theorem checkInRange_sound (hmeaning : meaning.Sound) (hwell : condition.WellFormed meaning usedKeySize)
    (hkey : meaning.IsKey usedKeySize t) (hnan : ∀ element ∈ condition.rpn, element.NotNaN meaning t)
    (hleft : LexLe 0 usedKeySize leftKeys t) (hright : LexLe 0 usedKeySize t rightKeys)
    (hpoint : condition.singlePoint = true → ∀ i < usedKeySize, leftKeys i = rightKeys i) :
    (∀ initialMask, ∃ mask,
      condition.checkInRange meaning.env usedKeySize leftKeys rightKeys meaning.dataTypes initialMask = .ok mask ∧
        (condition.MayBe meaning t true → mask.canBeTrue = true) ∧
        (condition.MayBe meaning t false → mask.canBeFalse = true)) ∧
    ∃ mayBeTrue, condition.mayBeTrueInRange meaning.env usedKeySize leftKeys rightKeys meaning.dataTypes = .ok mayBeTrue ∧
      (condition.MayBe meaning t true → mayBeTrue = true) := by
  constructor
  · intro initialMask
    obtain ⟨mask, hrun, hcovers⟩ := exists_checkInRange hmeaning hwell hkey hnan hleft hright hpoint initialMask
    exact ⟨mask, hrun, hcovers.true_of_mem, hcovers.false_of_mem⟩
  · obtain ⟨mask, hrun, hcovers⟩ :=
      exists_checkInRange hmeaning hwell hkey hnan hleft hright hpoint BoolMask.considerOnlyCanBeTrue
    refine ⟨mask.canBeTrue, ?_, hcovers.true_of_mem⟩
    unfold mayBeTrueInRange
    rw [hrun]
    rfl

end KeyCondition

/-! ## An instance -/

/-- The operations of `Range` on fields that are not rounded. -/
def plainRanges : RangeOps F where
  point x := ⟨x, true, x, true⟩
  between l li r ri := ⟨l, li, r, ri⟩
  createWholeUniverse := ⟨⊥, true, ⊤, true⟩
  createWholeUniverseWithoutNull := ⟨⊥, false, ⊤, false⟩
  createLeftBounded l included withNull := ⟨l, included, ⊤, withNull || (decide (l = ⊤) && included)⟩
  createRightBounded r included withNull := ⟨⊥, withNull || (decide (r = ⊥) && included), r, included⟩
  intersectsRange r s :=
    !(decide (s.right < r.left) || ((!r.leftIncluded || !s.rightIncluded) && decide (s.right = r.left))) &&
      !(decide (r.right < s.left) || ((!r.rightIncluded || !s.leftIncluded) && decide (s.left = r.right)))
  containsRange r s :=
    !(decide (s.left < r.left) || (s.leftIncluded && !r.leftIncluded && decide (s.left = r.left))) &&
      !(decide (r.right < s.right) || (s.rightIncluded && !r.rightIncluded && decide (s.right = r.right)))
  invert r :=
    ⟨if r.right = ⊤ then ⊥ else r.right, r.rightIncluded, if r.left = ⊥ then ⊤ else r.left, r.leftIncluded⟩

omit [BoundedOrder F] in
/-- A field right of an end and left of another one: the ends do not exclude each other. -/
theorem end_not_before {a b x : F} {p q : Bool} (ha : a < x ∨ a = x ∧ p = true) (hb : x < b ∨ x = b ∧ q = true) :
    ¬ b < a ∧ (b = a → p = true ∧ q = true) := by
  refine ⟨fun hlt => ?_, ?_⟩
  · have hle : a ≤ b := le_trans (ha.elim le_of_lt fun h => h.1.le) (hb.elim le_of_lt fun h => h.1.le)
    exact absurd hlt (not_lt.2 hle)
  · rintro rfl
    rcases ha with ha | ⟨rfl, hp⟩
    · exact absurd (lt_of_lt_of_le ha (hb.elim le_of_lt fun h => h.1.le)) (lt_irrefl _)
    · exact ⟨hp, hb.elim (fun h => absurd h (lt_irrefl _)) fun h => h.2⟩

theorem plainRanges_sound : (plainRanges : RangeOps F).Sound where
  point _ := rfl
  between _ _ _ _ _ _ h := h
  wholeUniverse x hbot := by
    by_cases htop : x = ⊤
    · rw [htop, Range.contains_top]
      exact Or.inl ⟨rfl, rfl⟩
    · exact (Range.contains_value htop).2 ⟨Or.inl (bot_lt_iff_ne_bot.2 hbot), Or.inl (lt_top_iff_ne_top.2 htop)⟩
  wholeUniverseWithoutNull x hbot htop :=
    (Range.contains_value htop).2 ⟨Or.inl (bot_lt_iff_ne_bot.2 hbot), Or.inl (lt_top_iff_ne_top.2 htop)⟩
  leftBounded l included withNull x _ hnull hleft := by
    by_cases htop : x = ⊤
    · rw [htop, Range.contains_top]
      exact Or.inl ⟨rfl, Bool.or_eq_true_iff.2 (Or.inl (hnull htop))⟩
    · exact (Range.contains_value htop).2 ⟨hleft, Or.inl (lt_top_iff_ne_top.2 htop)⟩
  rightBounded r included withNull x hbot _ hright := by
    by_cases htop : x = ⊤
    · subst htop
      rw [Range.contains_top]
      rcases hright with hlt | ⟨heq, hincluded⟩
      · exact absurd hlt not_top_lt
      · exact Or.inl ⟨heq.symm, hincluded⟩
    · exact (Range.contains_value htop).2 ⟨Or.inl (bot_lt_iff_ne_bot.2 hbot), hright⟩
  intersects r s x _ htop hr hs := by
    obtain ⟨hrl, hrr⟩ := (Range.contains_value htop).1 hr
    obtain ⟨hsl, hsr⟩ := (Range.contains_value htop).1 hs
    obtain ⟨hnot₁, hends₁⟩ := end_not_before hrl hsr
    obtain ⟨hnot₂, hends₂⟩ := end_not_before hsl hrr
    unfold plainRanges
    dsimp only
    rw [Bool.and_eq_true_iff, Bool.not_eq_true', Bool.not_eq_true', Bool.or_eq_false_iff, Bool.or_eq_false_iff,
      decide_eq_false_iff_not, decide_eq_false_iff_not]
    refine ⟨⟨hnot₁, ?_⟩, hnot₂, ?_⟩
    · by_cases heq : s.right = r.left
      · simp [hends₁ heq]
      · simp [heq]
    · by_cases heq : s.left = r.right
      · simp [hends₂ heq.symm]
      · simp [heq]
  contains r s h x _ hs := by
    unfold plainRanges at h
    dsimp only at h
    rw [Bool.and_eq_true_iff, Bool.not_eq_true', Bool.not_eq_true', Bool.or_eq_false_iff, Bool.or_eq_false_iff,
      decide_eq_false_iff_not, decide_eq_false_iff_not, not_lt, not_lt] at h
    obtain ⟨⟨hleft, hleft'⟩, hright, hright'⟩ := h
    by_cases htop : x = ⊤
    · subst htop
      rw [Range.contains_top] at hs ⊢
      rcases hs with ⟨heq, hincluded⟩ | ⟨heq, hincluded⟩
      · have hr : r.right = ⊤ := top_le_iff.1 (heq ▸ hright)
        exact Or.inl ⟨hr, by simpa [heq, hr, hincluded] using hright'⟩
      · have hr : r.left = ⊥ := le_bot_iff.1 (heq ▸ hleft)
        exact Or.inr ⟨hr, by simpa [heq, hr, hincluded] using hleft'⟩
    · rw [Range.contains_value htop] at hs ⊢
      obtain ⟨hsl, hsr⟩ := hs
      constructor
      · rcases hsl with hlt | ⟨rfl, hincluded⟩
        · exact Or.inl (lt_of_le_of_lt hleft hlt)
        · rcases lt_or_eq_of_le hleft with hlt | heq
          · exact Or.inl hlt
          · exact Or.inr ⟨heq, by simpa [heq, hincluded] using hleft'⟩
      · rcases hsr with hlt | ⟨rfl, hincluded⟩
        · exact Or.inl (lt_of_lt_of_le hlt hright)
        · rcases lt_or_eq_of_le hright with hlt | heq
          · exact Or.inl hlt
          · exact Or.inr ⟨heq, by simpa [heq, hincluded] using hright'⟩
  invert r x hbot htop hright hleft := by
    rw [Range.contains_value htop]
    unfold plainRanges
    dsimp only
    constructor
    · split
      · exact Or.inl (bot_lt_iff_ne_bot.2 hbot)
      · rename_i hne
        exact hright hne
    · split
      · exact Or.inl (lt_top_iff_ne_top.2 htop)
      · rename_i hne
        exact hleft hne
  invert_null r h := by
    rw [Range.contains_top] at h ⊢
    unfold plainRanges
    dsimp only
    rcases h with ⟨hright, hincluded⟩ | ⟨hleft, hincluded⟩
    · exact Or.inr ⟨if_pos hright, hincluded⟩
    · exact Or.inl ⟨if_pos hleft, hincluded⟩

/-- Integer fields. -/
abbrev IntField : Type := WithBot (WithTop ℤ)

/-- An integer as a field. -/
def intField (v : ℤ) : IntField := ((v : WithTop ℤ) : WithBot (WithTop ℤ))

/-- The sign is changed; `NULL` stays what it is. -/
def negateField : IntField → IntField
  | some (some v) => intField (-v)
  | _ => ⊤

/-- `negate`, which is decreasing on every range. -/
def negateFunction : FunctionBase IntField Unit := ⟨fun _ _ _ => ⟨true, false⟩, fun _ => negateField, ()⟩

/-- Fields without `NaN`, columns without `NULL`, no sets. -/
def integerKeys : KeyMeaning IntField Unit where
  env := ⟨plainRanges, fun _ => false, fun _ => false, fun _ => "", fun _ _ => .ok ⟨true, true⟩, fun _ _ => .ok ⟨true, true⟩⟩
  dataTypes _ := ()
  inSet _ _ := False

/-- `-x` between -7 and -3, and `y` not `NULL`. -/
def negatedAndNotNull : KeyCondition IntField Unit where
  rpn := [
    { function := .functionInRange, range := ⟨intField (-7), true, intField (-3), true⟩, keyColumns := [0],
      monotonicFunctionsChain := [negateFunction] },
    { function := .functionIsNotNull, range := ⟨⊥, false, ⊤, false⟩, keyColumns := [1] },
    { function := .functionAnd, range := ⟨⊥, true, ⊤, true⟩ }]

theorem exists_intField {x : IntField} (hbot : x ≠ ⊥) (htop : x ≠ ⊤) : ∃ v, x = intField v := by
  match x, hbot, htop with
  | none, hbot, _ => exact absurd rfl hbot
  | some none, _, htop => exact absurd rfl htop
  | some (some v), _, _ => exact ⟨v, rfl⟩

theorem negateFunction_truthful : negateFunction.Truthful () := by
  intro left right _ x y hbot htop _ hle _
  have hxtop : x ≠ ⊤ := fun heq => htop (top_le_iff.1 (heq ▸ hle))
  have hybot : y ≠ ⊥ := fun heq => hbot (le_bot_iff.1 (heq ▸ hle))
  obtain ⟨v, rfl⟩ := exists_intField hbot hxtop
  obtain ⟨w, rfl⟩ := exists_intField hybot htop
  have hvw : v ≤ w := WithTop.coe_le_coe.1 (WithBot.coe_le_coe.1 hle)
  refine ⟨⟨nofun, nofun⟩, ?_⟩
  exact WithBot.coe_le_coe.2 (WithTop.coe_le_coe.2 (neg_le_neg hvw))

theorem negateFunction_ne_bot (x : IntField) : negateFunction.applyFunction () x ≠ ⊥ := by
  match x with
  | none => nofun
  | some none => nofun
  | some (some v) => nofun

theorem integerKeys_sound : integerKeys.Sound := ⟨plainRanges_sound, fun _ _ h => by cases h⟩

theorem negatedAndNotNull_wellFormed : negatedAndNotNull.WellFormed integerKeys 2 where
  leavesOne := by decide
  elements := by
    intro element hmem
    right
    rcases List.mem_cons.1 hmem with rfl | hmem
    · refine ⟨?_, 0, by decide, rfl, fun _ => negateFunction_truthful, negateFunction_ne_bot, trivial⟩
      rw [Range.contains_top]
      decide
    · rcases List.mem_cons.1 hmem with rfl | hmem
      · refine ⟨fun x hbot => ⟨?_, fun htop => ?_⟩, 1, by decide, rfl⟩
        · rintro hrange rfl
          rw [Range.contains_top] at hrange
          revert hrange
          decide
        · exact (Range.contains_value htop).2 ⟨Or.inl (bot_lt_iff_ne_bot.2 hbot), Or.inl (lt_top_iff_ne_top.2 htop)⟩
      · obtain rfl := List.mem_singleton.1 hmem
        trivial

/-- A tuple of two integers. -/
def intPair (x y : ℤ) (i : ℕ) : IntField := if i = 0 then intField x else intField y

theorem lexLe_intPair {a b c d : ℤ} (h : intField a < intField c) : LexLe 0 2 (intPair a b) (intPair c d) := by
  intro j _ hj hbefore
  interval_cases j
  · exact h.le
  · exact absurd (hbefore 0 le_rfl Nat.zero_lt_one) h.ne

theorem KeyCondition.checkInRange_sound_pair :
    ∃ mask, negatedAndNotNull.checkInRange integerKeys.env 2 (intPair 3 1) (intPair 9 0) integerKeys.dataTypes ⟨false, false⟩ =
      .ok mask ∧ mask.canBeTrue = true := by
  have hkey : integerKeys.IsKey 2 (intPair 5 2) := by
    intro i hi
    interval_cases i <;> exact ⟨nofun, nofun⟩
  have hleft : LexLe 0 2 (intPair 3 1) (intPair 5 2) := lexLe_intPair (by decide)
  have hright : LexLe 0 2 (intPair 5 2) (intPair 9 0) := lexLe_intPair (by decide)
  have hmay : negatedAndNotNull.MayBe integerKeys (intPair 5 2) true := by
    refine ⟨_, rfl, true, ⟨fun _ => ⟨1, rfl, nofun⟩, fun _ _ => rfl⟩, true, ⟨fun _ => ?_, fun _ _ => rfl⟩, rfl⟩
    exact ⟨0, _, rfl, rfl, nofun, rfl, (Range.contains_value (by nofun)).2 (by decide)⟩
  obtain ⟨hcheck, -⟩ := checkInRange_sound integerKeys_sound negatedAndNotNull_wellFormed hkey (fun _ _ _ _ => rfl) hleft hright
    (fun htrue => by cases htrue)
  obtain ⟨mask, hrun, htrue, -⟩ := hcheck ⟨false, false⟩
  exact ⟨mask, hrun, htrue hmay⟩

end MergeTree
