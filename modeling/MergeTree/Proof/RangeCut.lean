import MergeTree.Proof.KeyCondition

/-!
# The cut of a range of keys is exact

Without early exits `forAnyHyperrectangle` visits the hyperrectangles of `visited`: first the
ones strictly between the bounds in the first column where they differ, then those next to
the left bound, then those next to the right one. They are pairwise disjoint and hold exactly
the tuples between the bounds (`visited_spec`), since what a part leaves behind in the shared
hyperrectangle is overwritten by the part that follows.

An early exit is taken only when both components of the mask are known to be true. With an
initial mask that fixes one component the other one is still the disjunction over all
hyperrectangles (`sel_forAnyHyperrectangle`).
-/

namespace MergeTree

section Cut

variable {F D : Type} [LinearOrder F] [BoundedOrder F]

/-! ## What is visited -/

section Visited

variable (env : KeyEnvironment F D) (keySize : ℕ) (leftKeys rightKeys : ℕ → F) (dataTypes : ℕ → D)

/-- The hyperrectangles of a part next to a bound, after those there are. -/
def visitedSide (bounded : Bool) (side : Hyperrectangle F → List (Hyperrectangle F) × Hyperrectangle F)
    (st : List (Hyperrectangle F) × Hyperrectangle F) : List (Hyperrectangle F) × Hyperrectangle F :=
  if bounded then (st.1 ++ (side st.2).1, (side st.2).2) else st

/-- **The hyperrectangles that `forAnyHyperrectangle` visits without early exits**, in order, and the shared
one as it is left. -/
def visited (leftBounded rightBounded : Bool) (hyperrectangle : Hyperrectangle F) (prefixSize : ℕ) :
    List (Hyperrectangle F) × Hyperrectangle F :=
  if !leftBounded && !rightBounded then ([hyperrectangle], hyperrectangle)
  else
    let column := (skipMatching env keySize leftKeys rightKeys leftBounded rightBounded hyperrectangle prefixSize).1
    let matched := (skipMatching env keySize leftKeys rightKeys leftBounded rightBounded hyperrectangle prefixSize).2
    if keySize ≤ column then ([matched], matched)
    else if column + 1 = keySize then
      let last := setBounded env leftKeys rightKeys dataTypes leftBounded rightBounded true column matched
      ([last], last)
    else
      let inner := freeColumns env keySize dataTypes (column + 1)
        (setBounded env leftKeys rightKeys dataTypes leftBounded rightBounded false column matched)
      let left := visitedSide leftBounded
        (fun h => visited true false (h.set column (env.ops.point (leftKeys column))) (column + 1)) ([inner], inner)
      visitedSide rightBounded
        (fun h => visited false true (h.set column (env.ops.point (rightKeys column))) (column + 1)) left
termination_by keySize - prefixSize
decreasing_by
  all_goals
    have := le_skipMatching env keySize leftKeys rightKeys leftBounded rightBounded hyperrectangle prefixSize
    omega

end Visited

/-! ## Exact ranges -/

/-- The tuple has values in its columns, and no infinity. -/
def IsValues (n : ℕ) (t : ℕ → F) : Prop := ∀ i < n, t i ≠ ⊥ ∧ t i ≠ ⊤

/-- **Ranges contain the values they stand for**, and no other value. -/
structure RangeOps.Exact (ops : RangeOps F) : Prop where
  point : ∀ y x, x ≠ ⊥ → x ≠ ⊤ → ((ops.point y).Contains x ↔ y = x)
  between : ∀ l li r ri x, x ≠ ⊥ → x ≠ ⊤ →
    ((ops.between l li r ri).Contains x ↔ (l < x ∨ l = x ∧ li = true) ∧ (x < r ∨ x = r ∧ ri = true))
  wholeUniverse : ∀ x, x ≠ ⊥ → x ≠ ⊤ → ops.createWholeUniverse.Contains x
  wholeUniverseWithoutNull : ∀ x, x ≠ ⊥ → x ≠ ⊤ → ops.createWholeUniverseWithoutNull.Contains x
  leftBounded : ∀ l included withNull x, x ≠ ⊥ → x ≠ ⊤ →
    ((ops.createLeftBounded l included withNull).Contains x ↔ l < x ∨ l = x ∧ included = true)
  rightBounded : ∀ r included withNull x, x ≠ ⊥ → x ≠ ⊤ →
    ((ops.createRightBounded r included withNull).Contains x ↔ x < r ∨ x = r ∧ included = true)

/-- No tuple of values is in both. -/
def Apart (n : ℕ) (h h' : Hyperrectangle F) : Prop := ∀ t, IsValues n t → h.Contains t → ¬h'.Contains t

variable {env : KeyEnvironment F D} {n c : ℕ} {leftKeys rightKeys : ℕ → F} {dataTypes : ℕ → D} {h h' : Hyperrectangle F}
  {t : ℕ → F}

omit [BoundedOrder F] in
theorem lexLe_iff {a b : ℕ → F} (hc : c < n) : LexLe c n a b ↔ a c < b c ∨ a c = b c ∧ LexLe (c + 1) n a b := by
  constructor
  · intro hle
    exact (lt_or_eq_of_le (hle.head hc)).imp_right fun heq => ⟨heq, hle.succ heq⟩
  · rintro (hlt | ⟨heq, hle⟩) j hcj hj hbefore
    · rcases Nat.eq_or_lt_of_le hcj with rfl | hlt'
      · exact hlt.le
      · exact absurd (hbefore c le_rfl hlt') hlt.ne
    · rcases Nat.eq_or_lt_of_le hcj with rfl | hlt'
      · exact heq.le
      · exact hle j hlt' hj fun i hi hij => hbefore i (Nat.le_of_succ_le hi) hij

theorem contains_iff_below (hlength : h.length = n) : h.Contains t ↔ ContainsBelow n h t :=
  ⟨fun hc i _ range hget => hc i range hget, fun hb => hb.contains hlength.le⟩

theorem containsBelow_frame (hframe : Frame n c h h') : ContainsBelow c h' t ↔ ContainsBelow c h t :=
  ⟨fun hb i hi range hget => hb i hi range ((hframe.same i hi).trans hget), fun hb => hb.frame hframe⟩

theorem containsBelow_set (hlength : h.length = n) (hc : c < n) (range : Range F) :
    ContainsBelow (c + 1) (h.set c range) t ↔ ContainsBelow c h t ∧ range.Contains (t c) := by
  constructor
  · intro hb
    refine ⟨fun i hi range' hget => hb i (Nat.lt_succ_of_lt hi) range' ?_, hb c (Nat.lt_succ_self c) range ?_⟩
    · rw [List.getElem?_set_ne (by omega), hget]
    · rw [List.getElem?_set_self (by omega)]
  · exact fun hb => hb.1.set hb.2

theorem containsBelow_point (hops : env.ops.Exact) (hlength : h.length = n) (hc : c < n) (ht : IsValues n t) (key : F) :
    ContainsBelow (c + 1) (h.set c (env.ops.point key)) t ↔ ContainsBelow c h t ∧ key = t c := by
  rw [containsBelow_set hlength hc, hops.point key (t c) (ht c hc).1 (ht c hc).2]

theorem containsBelow_setBounded (hops : env.ops.Exact) (hlength : h.length = n) (hc : c < n) (ht : IsValues n t)
    {leftBounded rightBounded : Bool} (hbounded : (leftBounded || rightBounded) = true) (included : Bool) :
    ContainsBelow (c + 1) (setBounded env leftKeys rightKeys dataTypes leftBounded rightBounded included c h) t ↔
      ContainsBelow c h t ∧ (leftBounded = true → leftKeys c < t c ∨ leftKeys c = t c ∧ included = true) ∧
        (rightBounded = true → t c < rightKeys c ∨ t c = rightKeys c ∧ included = true) := by
  obtain ⟨hbot, htop⟩ := ht c hc
  unfold setBounded boundedRange
  cases leftBounded with
  | true =>
    cases rightBounded with
    | true => simp [containsBelow_set hlength hc, hops.between _ _ _ _ _ hbot htop]
    | false => simp [containsBelow_set hlength hc, hops.leftBounded _ _ _ _ hbot htop]
  | false =>
    cases rightBounded with
    | true => simp [containsBelow_set hlength hc, hops.rightBounded _ _ _ _ hbot htop]
    | false => cases hbounded

omit [LinearOrder F] [BoundedOrder F] in
theorem frame_setBounded [LinearOrder F] [BoundedOrder F] (hlength : h.length = n) (leftBounded rightBounded included : Bool) :
    Frame n c h (setBounded env leftKeys rightKeys dataTypes leftBounded rightBounded included c h) := by
  unfold setBounded
  split
  · exact Frame.set hlength le_rfl _
  · exact Frame.refl hlength

omit [LinearOrder F] [BoundedOrder F] in
theorem frame_freeColumns (hlength : h.length = n) (env : KeyEnvironment F D) (dataTypes : ℕ → D) :
    Frame n c h (freeColumns env n dataTypes c h) := by
  obtain ⟨hlen, hget⟩ := getElem?_foldl_set (columnUniverse env dataTypes) (n - c) c h
  exact ⟨hlen.trans hlength, fun i hi => (hget i).trans (if_neg (by omega))⟩

theorem contains_freeColumns (hops : env.ops.Exact) (hlength : h.length = n) (ht : IsValues n t) :
    (freeColumns env n dataTypes c h).Contains t ↔ ContainsBelow c h t := by
  obtain ⟨hlen, hget⟩ := getElem?_foldl_set (columnUniverse env dataTypes) (n - c) c h
  rw [contains_iff_below ((frame_freeColumns hlength env dataTypes).length_eq),
    ← containsBelow_frame (frame_freeColumns hlength env dataTypes)]
  refine ⟨fun hb i hi range hrange => hb i ?_ range hrange, fun hb i hi range hrange => ?_⟩
  · have hlt := (List.getElem?_eq_some_iff.1 hrange).1
    rwa [(frame_freeColumns hlength env dataTypes).length_eq] at hlt
  · rcases Nat.lt_or_ge i c with hlt | hge
    · exact hb i hlt range hrange
    · have huniverse : (freeColumns env n dataTypes c h)[i]? = some (columnUniverse env dataTypes i) :=
        (hget i).trans (if_pos (by omega))
      rw [huniverse, Option.some.injEq] at hrange
      subst hrange
      obtain ⟨hbot, htop⟩ := ht i hi
      unfold columnUniverse
      split
      · exact hops.wholeUniverse _ hbot htop
      · exact hops.wholeUniverseWithoutNull _ hbot htop

/-- **The first loop**: the columns where the bounds agree are points, and a tuple between the bounds agrees
with them. -/
theorem matchPrefix_exact (hops : env.ops.Exact) (prefixSize : ℕ) (h : Hyperrectangle F) (hlength : h.length = n)
    (hle : prefixSize ≤ n) (hkeys : LexLe prefixSize n leftKeys rightKeys) :
    Frame n prefixSize h (matchPrefix env n leftKeys rightKeys prefixSize h).2 ∧
      (matchPrefix env n leftKeys rightKeys prefixSize h).1 ≤ n ∧
      ((matchPrefix env n leftKeys rightKeys prefixSize h).1 < n →
        leftKeys (matchPrefix env n leftKeys rightKeys prefixSize h).1 <
          rightKeys (matchPrefix env n leftKeys rightKeys prefixSize h).1) ∧
      ∀ t, IsValues n t →
        (ContainsBelow (matchPrefix env n leftKeys rightKeys prefixSize h).1
            (matchPrefix env n leftKeys rightKeys prefixSize h).2 t ∧
          BetweenKeys n leftKeys rightKeys true true (matchPrefix env n leftKeys rightKeys prefixSize h).1 t ↔
        ContainsBelow prefixSize h t ∧ BetweenKeys n leftKeys rightKeys true true prefixSize t) := by
  fun_induction matchPrefix env n leftKeys rightKeys prefixSize h with
  | case1 prefixSize h hlt heq ih =>
    have hset : Frame n prefixSize h (h.set prefixSize (env.ops.point (leftKeys prefixSize))) := Frame.set hlength le_rfl _
    obtain ⟨hframe, hsize, hdiffer, hbelow⟩ := ih hset.length_eq hlt (hkeys.succ heq)
    refine ⟨hset.trans hframe (Nat.le_succ _), hsize, hdiffer, fun t ht => (hbelow t ht).trans ?_⟩
    rw [containsBelow_point hops hlength hlt ht]
    constructor
    · rintro ⟨⟨hb, hfield⟩, hbetween⟩
      refine ⟨hb, fun _ => (lexLe_iff hlt).2 (Or.inr ⟨hfield, hbetween.left rfl⟩), fun _ =>
        (lexLe_iff hlt).2 (Or.inr ⟨hfield.symm.trans heq, hbetween.right rfl⟩)⟩
    · rintro ⟨hb, hbetween⟩
      -- the field is squeezed between equal bounds
      have hfield : leftKeys prefixSize = t prefixSize :=
        le_antisymm ((hbetween.left rfl).head hlt) (((hbetween.right rfl).head hlt).trans_eq heq.symm)
      exact ⟨⟨hb, hfield⟩, fun _ => (hbetween.left rfl).succ hfield, fun _ =>
        (hbetween.right rfl).succ (hfield.symm.trans heq)⟩
  | case2 prefixSize h hlt hne =>
    exact ⟨Frame.refl hlength, hle, fun _ => lt_of_le_of_ne (hkeys.head hlt) hne, fun t _ => Iff.rfl⟩
  | case3 prefixSize h hge =>
    exact ⟨Frame.refl hlength, hle, fun hlt => absurd hlt hge, fun t _ => Iff.rfl⟩

theorem skipMatching_exact (hops : env.ops.Exact) (leftBounded rightBounded : Bool) (prefixSize : ℕ) (h : Hyperrectangle F)
    (hlength : h.length = n) (hle : prefixSize ≤ n)
    (hkeys : leftBounded = true → rightBounded = true → LexLe prefixSize n leftKeys rightKeys) :
    Frame n prefixSize h (skipMatching env n leftKeys rightKeys leftBounded rightBounded h prefixSize).2 ∧
      (skipMatching env n leftKeys rightKeys leftBounded rightBounded h prefixSize).1 ≤ n ∧
      (leftBounded = true → rightBounded = true →
        (skipMatching env n leftKeys rightKeys leftBounded rightBounded h prefixSize).1 < n →
        leftKeys (skipMatching env n leftKeys rightKeys leftBounded rightBounded h prefixSize).1 <
          rightKeys (skipMatching env n leftKeys rightKeys leftBounded rightBounded h prefixSize).1) ∧
      ∀ t, IsValues n t →
        (ContainsBelow (skipMatching env n leftKeys rightKeys leftBounded rightBounded h prefixSize).1
            (skipMatching env n leftKeys rightKeys leftBounded rightBounded h prefixSize).2 t ∧
          BetweenKeys n leftKeys rightKeys leftBounded rightBounded
            (skipMatching env n leftKeys rightKeys leftBounded rightBounded h prefixSize).1 t ↔
        ContainsBelow prefixSize h t ∧ BetweenKeys n leftKeys rightKeys leftBounded rightBounded prefixSize t) := by
  unfold skipMatching
  split
  · rename_i hboth
    obtain ⟨rfl, rfl⟩ := Bool.and_eq_true_iff.1 hboth
    obtain ⟨hframe, hsize, hdiffer, hbelow⟩ := matchPrefix_exact hops prefixSize h hlength hle (hkeys rfl rfl)
    exact ⟨hframe, hsize, fun _ _ => hdiffer, hbelow⟩
  · rename_i hnot
    refine ⟨Frame.refl hlength, hle, fun hl hr => absurd (Bool.and_eq_true_iff.2 ⟨hl, hr⟩) hnot, fun t _ => Iff.rfl⟩

/-! ## Parts of the cut -/

/-- **A part of the cut**: hyperrectangles that are apart from each other and hold the tuples with `P`, and a
shared hyperrectangle that is the same before column `c`. -/
structure Part (n c : ℕ) (h : Hyperrectangle F) (v : List (Hyperrectangle F) × Hyperrectangle F) (P : (ℕ → F) → Prop) :
    Prop where
  leaves : Frame n c h v.2
  boxes : ∀ box ∈ v.1, box.length = n
  covers : ∀ t, IsValues n t → ((∃ box ∈ v.1, box.Contains t) ↔ P t)
  apart : v.1.Pairwise (Apart n)

namespace Part

variable {v : List (Hyperrectangle F) × Hyperrectangle F} {P Q : (ℕ → F) → Prop}

theorem single (hframe : Frame n c h h') (hcovers : ∀ t, IsValues n t → (h'.Contains t ↔ P t)) : Part n c h ([h'], h') P where
  leaves := hframe
  boxes box hmem := List.mem_singleton.1 hmem ▸ hframe.length_eq
  covers t ht := by
    rw [← hcovers t ht]
    simp
  apart := List.pairwise_singleton _ _

theorem side (hpart : Part n c h v P) (bounded : Bool)
    (next : Hyperrectangle F → List (Hyperrectangle F) × Hyperrectangle F)
    (hnext : bounded = true → Part n c v.2 (next v.2) Q) (hexclusive : ∀ t, bounded = true → P t → ¬Q t) :
    Part n c h (visitedSide bounded next v) (fun t => P t ∨ bounded = true ∧ Q t) := by
  unfold visitedSide
  cases bounded with
  | false => exact ⟨hpart.leaves, hpart.boxes, fun t ht => by simpa using hpart.covers t ht, hpart.apart⟩
  | true =>
    have hnext := hnext rfl
    rw [if_pos rfl]
    refine ⟨hpart.leaves.trans hnext.leaves le_rfl, fun box hmem => ?_, fun t ht => ?_, ?_⟩
    · exact (List.mem_append.1 hmem).elim (hpart.boxes box) (hnext.boxes box)
    · rw [← hpart.covers t ht, eq_self_iff_true, true_and, ← hnext.covers t ht]
      simp only [List.mem_append, or_and_right, exists_or]
    · refine List.pairwise_append.2 ⟨hpart.apart, hnext.apart, fun box hbox box' hbox' t ht hmem hmem' => ?_⟩
      exact hexclusive t rfl ((hpart.covers t ht).1 ⟨box, hbox, hmem⟩) ((hnext.covers t ht).1 ⟨box', hbox', hmem'⟩)

theorem after {p : ℕ} {h₀ : Hyperrectangle F} (hpart : Part n c h v P) (hframe : Frame n p h₀ h) (hle : p ≤ c)
    (hiff : ∀ t, IsValues n t → (P t ↔ Q t)) : Part n p h₀ v Q :=
  ⟨hframe.trans hpart.leaves hle, hpart.boxes, fun t ht => (hpart.covers t ht).trans (hiff t ht), hpart.apart⟩

end Part

omit [BoundedOrder F] in
/-- The parts of the cut in a column: strictly between the bounds, at the left one, at the right one. -/
theorem betweenKeys_iff {leftBounded rightBounded : Bool} (hc : c < n)
    (hdiffer : leftBounded = true → rightBounded = true → leftKeys c < rightKeys c) :
    BetweenKeys n leftKeys rightKeys leftBounded rightBounded c t ↔
      (((leftBounded = true → leftKeys c < t c) ∧ (rightBounded = true → t c < rightKeys c)) ∨
        leftBounded = true ∧ leftKeys c = t c ∧ BetweenKeys n leftKeys rightKeys true false (c + 1) t) ∨
        rightBounded = true ∧ rightKeys c = t c ∧ BetweenKeys n leftKeys rightKeys false true (c + 1) t := by
  constructor
  · rintro ⟨hleft, hright⟩
    by_cases hl : leftBounded = true ∧ leftKeys c = t c
    · exact Or.inl (Or.inr ⟨hl.1, hl.2, ⟨fun _ => (hleft hl.1).succ hl.2, nofun⟩⟩)
    · by_cases hr : rightBounded = true ∧ rightKeys c = t c
      · exact Or.inr ⟨hr.1, hr.2, ⟨nofun, fun _ => (hright hr.1).succ hr.2.symm⟩⟩
      · refine Or.inl (Or.inl ⟨fun h => ?_, fun h => ?_⟩)
        · exact lt_of_le_of_ne ((hleft h).head hc) fun heq => hl ⟨h, heq⟩
        · exact lt_of_le_of_ne ((hright h).head hc) fun heq => hr ⟨h, heq.symm⟩
  · rintro ((⟨hleft, hright⟩ | ⟨hl, heq, hbetween⟩) | ⟨hr, heq, hbetween⟩)
    · exact ⟨fun h => (lexLe_iff hc).2 (Or.inl (hleft h)), fun h => (lexLe_iff hc).2 (Or.inl (hright h))⟩
    · exact ⟨fun _ => (lexLe_iff hc).2 (Or.inr ⟨heq, hbetween.left rfl⟩),
        fun h => (lexLe_iff hc).2 (Or.inl (heq ▸ hdiffer hl h))⟩
    · exact ⟨fun h => (lexLe_iff hc).2 (Or.inl (heq ▸ hdiffer h hr)),
        fun _ => (lexLe_iff hc).2 (Or.inr ⟨heq.symm, hbetween.right rfl⟩)⟩

/-- **The cut is exact**: without early exits the hyperrectangles are apart from each other, and hold the
tuples between the bounds there are. -/
theorem visited_spec (hops : env.ops.Exact) (leftKeys rightKeys : ℕ → F) (dataTypes : ℕ → D) :
    ∀ {leftBounded rightBounded : Bool} {h : Hyperrectangle F} {prefixSize : ℕ}, h.length = n → prefixSize ≤ n →
      (leftBounded || rightBounded) = true →
        (leftBounded = true → rightBounded = true → LexLe prefixSize n leftKeys rightKeys) →
          Part n prefixSize h (visited env n leftKeys rightKeys dataTypes leftBounded rightBounded h prefixSize) (fun t =>
            ContainsBelow prefixSize h t ∧ BetweenKeys n leftKeys rightKeys leftBounded rightBounded prefixSize t) := by
  intro leftBounded rightBounded h prefixSize
  induction hrest : n - prefixSize using Nat.strong_induction_on generalizing leftBounded rightBounded h prefixSize with
  | h rest ih =>
    intro hlength hsize hbounded hkeys
    obtain ⟨hmatched, hcolumn, hdiffer, hbelow⟩ :=
      skipMatching_exact hops leftBounded rightBounded prefixSize h hlength hsize hkeys
    have hle := le_skipMatching env n leftKeys rightKeys leftBounded rightBounded h prefixSize
    rw [visited]
    rw [if_neg (by rw [← Bool.not_or, hbounded]; decide)]
    dsimp only
    generalize (skipMatching env n leftKeys rightKeys leftBounded rightBounded h prefixSize).1 = column at *
    generalize (skipMatching env n leftKeys rightKeys leftBounded rightBounded h prefixSize).2 = matched at *
    split
    · -- all columns are points
      rename_i hall
      obtain rfl : column = n := le_antisymm hcolumn hall
      refine Part.single hmatched fun t ht => ?_
      rw [← hbelow t ht, contains_iff_below hmatched.length_eq]
      refine ⟨fun hb => ⟨hb, ?_, ?_⟩, And.left⟩
      all_goals exact fun _ j hj hj' => absurd hj' (not_lt.2 hj)
    · rename_i hlt
      rw [not_le] at hlt
      split
      · -- the last column is between its bounds
        rename_i hlast
        have hset : Frame n column matched
            (setBounded env leftKeys rightKeys dataTypes leftBounded rightBounded true column matched) :=
          frame_setBounded hmatched.length_eq _ _ _
        refine Part.single (hmatched.trans hset hle) fun t ht => ?_
        have hbox := contains_iff_below (t := t) (hset.length_eq.trans hlast.symm)
        rw [← hbelow t ht, hbox, containsBelow_setBounded hops hmatched.length_eq hlt ht hbounded]
        have hrest : ∀ a b : ℕ → F, LexLe (column + 1) n a b := fun a b j hj hj' => absurd hj' (by omega)
        refine and_congr_right fun _ => ⟨fun ⟨hleft, hright⟩ => ⟨fun hb => ?_, fun hb => ?_⟩,
          fun hbetween => ⟨fun hb => ?_, fun hb => ?_⟩⟩
        · exact (lexLe_iff hlt).2 ((hleft hb).imp_right fun heq => ⟨heq.1, hrest _ _⟩)
        · exact (lexLe_iff hlt).2 ((hright hb).imp_right fun heq => ⟨heq.1, hrest _ _⟩)
        · exact ((lexLe_iff hlt).1 (hbetween.left hb)).imp_right fun heq => ⟨heq.1, rfl⟩
        · exact ((lexLe_iff hlt).1 (hbetween.right hb)).imp_right fun heq => ⟨heq.1, rfl⟩
      · have hset : Frame n column matched
            (setBounded env leftKeys rightKeys dataTypes leftBounded rightBounded false column matched) :=
          frame_setBounded hmatched.length_eq _ _ _
        have hinner : ∀ t, IsValues n t → ((freeColumns env n dataTypes (column + 1)
              (setBounded env leftKeys rightKeys dataTypes leftBounded rightBounded false column matched)).Contains t ↔
            ContainsBelow column matched t ∧ (leftBounded = true → leftKeys column < t column) ∧
              (rightBounded = true → t column < rightKeys column)) := fun t ht => by
          rw [contains_freeColumns hops hset.length_eq ht, containsBelow_setBounded hops hmatched.length_eq hlt ht hbounded]
          simp
        have hfree := hset.trans (frame_freeColumns (c := column + 1) hset.length_eq env dataTypes) (Nat.le_succ column)
        generalize freeColumns env n dataTypes (column + 1)
          (setBounded env leftKeys rightKeys dataTypes leftBounded rightBounded false column matched) = inner at *
        -- a part next to a bound has a point in this column
        have hside : ∀ (lb rb : Bool) (key : F) (h : Hyperrectangle F), (lb || rb) = true → (lb && rb) = false →
            Frame n column matched h → Part n column h
              (visited env n leftKeys rightKeys dataTypes lb rb (h.set column (env.ops.point key)) (column + 1)) (fun t =>
                ContainsBelow column matched t ∧ key = t column ∧ BetweenKeys n leftKeys rightKeys lb rb (column + 1) t) := by
          intro lb rb key h hor hand hframe
          have hpoint : Frame n column h (h.set column (env.ops.point key)) := Frame.set hframe.length_eq le_rfl _
          refine (ih (n - (column + 1)) (by omega) rfl hpoint.length_eq hlt hor fun hl hr => ?_).after hpoint (Nat.le_succ _)
            fun t ht => ?_
          · rw [hl, hr] at hand
            cases hand
          · rw [containsBelow_point hops hframe.length_eq hlt ht, containsBelow_frame hframe, and_assoc]
        have hleft := (Part.single hfree hinner).side leftBounded
          (fun h => visited env n leftKeys rightKeys dataTypes true false (h.set column (env.ops.point (leftKeys column)))
            (column + 1))
          (fun _ => hside true false (leftKeys column) inner rfl rfl hfree)
          fun t hb hinner hpoint => (hinner.2.1 hb).ne hpoint.2.1
        have hright := hleft.side rightBounded
          (fun h => visited env n leftKeys rightKeys dataTypes false true (h.set column (env.ops.point (rightKeys column)))
            (column + 1))
          (fun _ => hside false true (rightKeys column) _ rfl rfl hleft.leaves)
          (fun t hb hbefore hpoint => hbefore.elim (fun hinner => (hinner.2.2 hb).ne hpoint.2.1.symm)
            fun hleft => (hdiffer hleft.1 hb hlt).ne (hleft.2.2.1.trans hpoint.2.1.symm))
        refine hright.after hmatched hle fun t ht => ?_
        rw [← hbelow t ht, betweenKeys_iff hlt fun hl hr => hdiffer hl hr hlt]
        by_cases hcolumns : ContainsBelow column matched t
        · simp only [hcolumns, true_and]
        · simp only [hcolumns, false_and, and_false, or_self]

/-! ## The masks -/

/-- A component of a mask. -/
structure Component (sel : BoolMask → Bool) : Prop where
  combine : ∀ m m', sel (BoolMask.combine m m') = (sel m || sel m')
  empty : sel {} = false
  of_isComplete : ∀ m, m.isComplete = true → sel m = true

theorem canBeTrue_component : Component BoolMask.canBeTrue :=
  ⟨fun _ _ => rfl, rfl, fun _ h => (Bool.and_eq_true_iff.1 h).1⟩

theorem canBeFalse_component : Component BoolMask.canBeFalse :=
  ⟨fun _ _ => rfl, rfl, fun _ h => (Bool.and_eq_true_iff.1 h).2⟩

/-- All the masks combined, in order. -/
def combineAll (callback : Hyperrectangle F → Except String BoolMask) (boxes : List (Hyperrectangle F)) : Except String BoolMask :=
  boxes.foldlM (fun mask box => (callback box).map (BoolMask.combine mask)) {}

section Masks

variable {sel : BoolMask → Bool} {callback : Hyperrectangle F → Except String BoolMask}
  {boxes boxes' : List (Hyperrectangle F)}

theorem BoolMask.combine_assoc (m m' m'' : BoolMask) : combine (combine m m') m'' = combine m (combine m' m'') := by
  unfold combine
  simp only [Bool.or_assoc]

theorem BoolMask.empty_combine (m : BoolMask) : combine {} m = m := by
  unfold combine
  simp only [Bool.false_or]

theorem BoolMask.combine_empty (m : BoolMask) : combine m {} = m := by
  unfold combine
  simp only [Bool.or_false]

theorem BoolMask.considerOnlyCanBeTrue_isComplete {m : BoolMask} (h : m.canBeTrue = true) :
    (combine considerOnlyCanBeTrue m).isComplete = true := by
  simp [combine, considerOnlyCanBeTrue, isComplete, h]

theorem BoolMask.considerOnlyCanBeFalse_isComplete {m : BoolMask} (h : m.canBeFalse = true) :
    (combine considerOnlyCanBeFalse m).isComplete = true := by
  simp [combine, considerOnlyCanBeFalse, isComplete, h]

omit [LinearOrder F] [BoundedOrder F] in
theorem foldlM_combine (callback : Hyperrectangle F → Except String BoolMask) (mask : BoolMask) :
    boxes.foldlM (fun mask box => (callback box).map (BoolMask.combine mask)) mask =
      (combineAll callback boxes).map (BoolMask.combine mask) := by
  unfold combineAll
  induction boxes generalizing mask with
  | nil => exact congrArg Except.ok (BoolMask.combine_empty mask).symm
  | cons box boxes ih =>
    rw [List.foldlM_cons, List.foldlM_cons]
    cases callback box with
    | error e => rfl
    | ok m =>
      change List.foldlM (fun mask box => (callback box).map (BoolMask.combine mask)) (BoolMask.combine mask m) boxes =
        (List.foldlM (fun mask box => (callback box).map (BoolMask.combine mask)) (BoolMask.combine {} m) boxes).map
          (BoolMask.combine mask)
      rw [ih, ih (BoolMask.combine {} m), BoolMask.empty_combine]
      cases List.foldlM (fun mask box => (callback box).map (BoolMask.combine mask)) {} boxes with
      | error e => rfl
      | ok m' => exact congrArg Except.ok (BoolMask.combine_assoc mask m m')

omit [LinearOrder F] [BoundedOrder F] in
theorem combineAll_append : combineAll callback (boxes ++ boxes') =
    (combineAll callback boxes).bind fun mask => (combineAll callback boxes').map (BoolMask.combine mask) := by
  unfold combineAll
  rw [List.foldlM_append]
  exact congrArg _ (funext fun mask => foldlM_combine callback mask)

omit [LinearOrder F] [BoundedOrder F] in
theorem combineAll_singleton (box : Hyperrectangle F) : combineAll callback [box] = callback box := by
  unfold combineAll
  rw [List.foldlM_cons]
  cases callback box with
  | error e => rfl
  | ok m => exact congrArg Except.ok (BoolMask.empty_combine m)

omit [LinearOrder F] [BoundedOrder F] in
theorem sel_combineAll (hsel : Component sel) (hcallback : ∀ box mask, callback box = .ok mask → sel mask = false) :
    ∀ {mask}, combineAll callback boxes = .ok mask → sel mask = false := by
  induction boxes with
  | nil =>
    intro mask h
    obtain rfl := Except.ok.inj h
    exact hsel.empty
  | cons box boxes ih =>
    intro mask h
    rw [← List.singleton_append, combineAll_append, combineAll_singleton] at h
    cases hbox : callback box with
    | error e =>
      rw [hbox] at h
      cases h
    | ok m =>
      rw [hbox] at h
      cases hrest : combineAll callback boxes with
      | error e =>
        rw [hrest] at h
        cases h
      | ok m' =>
        rw [hrest] at h
        obtain rfl := Except.ok.inj h
        rw [hsel.combine, hcallback box m hbox, ih hrest]
        rfl

/-- A run that combines the masks of these hyperrectangles. -/
def Runs (callback : Hyperrectangle F → Except String BoolMask) (v : List (Hyperrectangle F) × Hyperrectangle F)
    (run : Except String (BoolMask × Hyperrectangle F)) : Prop :=
  run = (combineAll callback v.1).map fun mask => (mask, v.2)

omit [LinearOrder F] [BoundedOrder F] in
theorem Runs.single (callback : Hyperrectangle F → Except String BoolMask) (box : Hyperrectangle F) :
    Runs callback ([box], box) ((callback box).map fun mask => (mask, box)) := by
  unfold Runs
  rw [combineAll_singleton]

omit [LinearOrder F] [BoundedOrder F] in
theorem Runs.side {v : List (Hyperrectangle F) × Hyperrectangle F} {run : Except String (BoolMask × Hyperrectangle F)}
    (hrun : Runs callback v run) (bounded : Bool) (next : Hyperrectangle F → List (Hyperrectangle F) × Hyperrectangle F)
    (side : Hyperrectangle F → Except String (BoolMask × Hyperrectangle F)) (hnext : Runs callback (next v.2) (side v.2)) :
    Runs callback (visitedSide bounded next v) (run.bind (combineSide bounded side)) := by
  unfold Runs visitedSide at *
  rw [hrun]
  cases bounded with
  | false =>
    simp only [Bool.false_eq_true, if_false]
    cases combineAll callback v.1 <;> rfl
  | true =>
    rw [if_pos rfl, combineAll_append]
    cases combineAll callback v.1 with
    | error e => rfl
    | ok mask =>
      simp only [Except.map, Except.bind, combineSide, if_true, hnext]
      cases combineAll callback (next v.2).1 <;> rfl

omit [LinearOrder F] [BoundedOrder F] in
theorem Runs.sel_eq_false {v : List (Hyperrectangle F) × Hyperrectangle F} {st : BoolMask × Hyperrectangle F}
    (hrun : Runs callback v (.ok st)) (hsel : Component sel)
    (hcallback : ∀ box mask, callback box = .ok mask → sel mask = false) : sel st.1 = false := by
  unfold Runs at hrun
  cases hall : combineAll callback v.1 with
  | error e =>
    rw [hall] at hrun
    cases hrun
  | ok mask =>
    rw [hall] at hrun
    obtain rfl := Except.ok.inj hrun
    exact sel_combineAll hsel hcallback hall

omit [BoundedOrder F] in
/-- **Without early exits the hyperrectangles of `visited` are visited**, in order, and the callback throws where it
throws on one of them: an early exit needs a mask with both components. -/
theorem forAnyHyperrectangle_eq_visited (env : KeyEnvironment F D) (keySize : ℕ) (leftKeys rightKeys : ℕ → F) (dataTypes : ℕ → D)
    (hsel : Component sel) (hcallback : ∀ box mask, callback box = .ok mask → sel mask = false) :
    ∀ {leftBounded rightBounded : Bool} {h : Hyperrectangle F} {prefixSize : ℕ},
      Runs callback (visited env keySize leftKeys rightKeys dataTypes leftBounded rightBounded h prefixSize)
        (forAnyHyperrectangle env keySize leftKeys rightKeys dataTypes callback {} leftBounded rightBounded h prefixSize) := by
  intro leftBounded rightBounded h prefixSize
  induction hrest : keySize - prefixSize using Nat.strong_induction_on generalizing leftBounded rightBounded h prefixSize with
  | h rest ih =>
    have hle := le_skipMatching env keySize leftKeys rightKeys leftBounded rightBounded h prefixSize
    rw [visited, forAnyHyperrectangle]
    split
    · exact Runs.single callback h
    · dsimp only
      generalize (skipMatching env keySize leftKeys rightKeys leftBounded rightBounded h prefixSize).1 = column at *
      generalize (skipMatching env keySize leftKeys rightKeys leftBounded rightBounded h prefixSize).2 = matched at *
      split
      · exact Runs.single callback matched
      · split
        · exact Runs.single callback _
        · generalize freeColumns env keySize dataTypes (column + 1)
            (setBounded env leftKeys rightKeys dataTypes leftBounded rightBounded false column matched) = inner
          have hside : ∀ (lb rb : Bool) (key : F) (h : Hyperrectangle F), Runs callback
              (visited env keySize leftKeys rightKeys dataTypes lb rb (h.set column (env.ops.point key)) (column + 1))
              (forAnyHyperrectangle env keySize leftKeys rightKeys dataTypes callback {} lb rb
                (h.set column (env.ops.point key)) (column + 1)) := fun lb rb key h => ih _ (by omega) rfl
          have hincomplete : ∀ {mask}, sel mask = false → mask.isComplete = false := fun {mask} hmask => by
            by_contra hcomplete
            rw [Bool.not_eq_false] at hcomplete
            rw [hsel.of_isComplete mask hcomplete] at hmask
            cases hmask
          have hleft := (Runs.single callback inner).side leftBounded
            (fun h => visited env keySize leftKeys rightKeys dataTypes true false
              (h.set column (env.ops.point (leftKeys column))) (column + 1))
            (fun h => forAnyHyperrectangle env keySize leftKeys rightKeys dataTypes callback {} true false
              (h.set column (env.ops.point (leftKeys column))) (column + 1))
            (hside true false (leftKeys column) inner)
          have hright := hleft.side rightBounded
            (fun h => visited env keySize leftKeys rightKeys dataTypes false true
              (h.set column (env.ops.point (rightKeys column))) (column + 1))
            (fun h => forAnyHyperrectangle env keySize leftKeys rightKeys dataTypes callback {} false true
              (h.set column (env.ops.point (rightKeys column))) (column + 1))
            (hside false true (rightKeys column) _)
          refine Eq.trans ?_ hright
          cases hinner : callback inner with
          | error e => rfl
          | ok mask =>
            rw [hinner] at hleft
            simp only [bind, Except.bind, Except.map] at hleft ⊢
            rw [BoolMask.empty_combine, if_neg (by rw [hincomplete (hcallback inner mask hinner)]; decide)]
            cases hrun : combineSide leftBounded (fun h => forAnyHyperrectangle env keySize leftKeys rightKeys dataTypes
                callback {} true false (h.set column (env.ops.point (leftKeys column))) (column + 1)) (mask, inner) with
            | error e => rfl
            | ok left =>
              rw [hrun] at hleft
              dsimp only
              rw [if_neg (by rw [hincomplete (hleft.sel_eq_false hsel hcallback), Bool.and_false]; decide)]

/-- What an early exit may change: not the component, and nothing if there is no component. -/
structure SameComponent (sel : BoolMask → Bool) (st st' : BoolMask × Hyperrectangle F) : Prop where
  sel_eq : sel st'.1 = sel st.1
  leaves_eq : sel st.1 = false → st'.2 = st.2

section EarlyExit

variable {initialMask : BoolMask} {bounded : Bool} {side : Hyperrectangle F → Except String (BoolMask × Hyperrectangle F)}
  {st last : BoolMask × Hyperrectangle F}

omit [LinearOrder F] [BoundedOrder F] in
theorem combineSide_eq_ok (h : combineSide bounded side st = .ok last) :
    (bounded = false ∧ last = st) ∨
      (bounded = true ∧ ∃ part, side st.2 = .ok part ∧ last = (BoolMask.combine st.1 part.1, part.2)) := by
  unfold combineSide at h
  cases bounded with
  | false => exact Or.inl ⟨rfl, (Except.ok.inj h).symm⟩
  | true =>
    rw [if_pos rfl] at h
    cases hpart : side st.2 with
    | error e =>
      rw [hpart] at h
      cases h
    | ok part =>
      rw [hpart] at h
      exact Or.inr ⟨rfl, part, rfl, (Except.ok.inj h).symm⟩

omit [LinearOrder F] [BoundedOrder F] in
theorem sel_combineSide (hsel : Component sel) (h : combineSide bounded side st = .ok last) (hst : sel st.1 = true) :
    sel last.1 = true := by
  rcases combineSide_eq_ok h with ⟨-, rfl⟩ | ⟨-, part, -, rfl⟩
  · exact hst
  · rw [hsel.combine, hst, Bool.true_or]

omit [LinearOrder F] [BoundedOrder F] in
theorem combineSide_sameComponent (hsel : Component sel) (h : combineSide bounded side st = .ok last)
    (side' : Hyperrectangle F → Except String (BoolMask × Hyperrectangle F)) (st' : BoolMask × Hyperrectangle F)
    (hside : ∀ part, side st.2 = .ok part → ∃ part', side' st.2 = .ok part' ∧ SameComponent sel part part')
    (hst : SameComponent sel st st') (hnone : sel st.1 = false) (hinitial : ∃ m, st'.1 = BoolMask.combine initialMask m) :
    ∃ last', combineSide bounded side' st' = .ok last' ∧ SameComponent sel last last' ∧
      ∃ m, last'.1 = BoolMask.combine initialMask m := by
  rcases combineSide_eq_ok h with ⟨rfl, rfl⟩ | ⟨rfl, part, hpart, rfl⟩
  · exact ⟨st', rfl, hst, hinitial⟩
  · obtain ⟨part', hpart', hsame⟩ := hside part hpart
    obtain ⟨m, hm⟩ := hinitial
    refine ⟨(BoolMask.combine st'.1 part'.1, part'.2), ?_, ⟨?_, fun h => hsame.leaves_eq ?_⟩, BoolMask.combine m part'.1, ?_⟩
    · unfold combineSide
      rw [if_pos rfl, hst.leaves_eq hnone, hpart']
      rfl
    · rw [hsel.combine, hsel.combine, hst.sel_eq, hsame.sel_eq]
    · rw [hsel.combine] at h
      exact (Bool.or_eq_false_iff.1 h).2
    · rw [← BoolMask.combine_assoc, ← hm]

end EarlyExit

omit [BoundedOrder F] in
/-- **An early exit does not change a component**: with an initial mask that has not this component but the
other one, the run returns whenever it does with no initial mask, with the same component. -/
theorem sel_forAnyHyperrectangle (env : KeyEnvironment F D) (keySize : ℕ) (leftKeys rightKeys : ℕ → F) (dataTypes : ℕ → D)
    (callback : Hyperrectangle F → Except String BoolMask) (hsel : Component sel) {initialMask : BoolMask}
    (hinitial : sel initialMask = false)
    (hcomplete : ∀ mask, sel mask = true → (BoolMask.combine initialMask mask).isComplete = true) :
    ∀ {leftBounded rightBounded : Bool} {h : Hyperrectangle F} {prefixSize : ℕ} {st : BoolMask × Hyperrectangle F},
      forAnyHyperrectangle env keySize leftKeys rightKeys dataTypes callback {} leftBounded rightBounded h prefixSize = .ok st →
        ∃ st', forAnyHyperrectangle env keySize leftKeys rightKeys dataTypes callback initialMask leftBounded rightBounded h
            prefixSize = .ok st' ∧ SameComponent sel st st' := by
  have hnone : ∀ {mask}, sel mask = false → mask.isComplete = false := fun {mask} hmask => by
    by_contra hfull
    rw [Bool.not_eq_false] at hfull
    rw [hsel.of_isComplete mask hfull] at hmask
    cases hmask
  intro leftBounded rightBounded h prefixSize
  induction hrest : keySize - prefixSize using Nat.strong_induction_on generalizing leftBounded rightBounded h prefixSize with
  | h rest ih =>
    intro st hrun
    have hle := le_skipMatching env keySize leftKeys rightKeys leftBounded rightBounded h prefixSize
    rw [forAnyHyperrectangle] at hrun ⊢
    by_cases hopen : (!leftBounded && !rightBounded) = true
    · rw [if_pos hopen] at hrun ⊢
      exact ⟨st, hrun, rfl, fun _ => rfl⟩
    rw [if_neg hopen] at hrun ⊢
    dsimp only at hrun ⊢
    generalize (skipMatching env keySize leftKeys rightKeys leftBounded rightBounded h prefixSize).1 = column at *
    generalize (skipMatching env keySize leftKeys rightKeys leftBounded rightBounded h prefixSize).2 = matched at *
    by_cases hall : keySize ≤ column
    · rw [if_pos hall] at hrun ⊢
      exact ⟨st, hrun, rfl, fun _ => rfl⟩
    rw [if_neg hall] at hrun ⊢
    by_cases hlast : column + 1 = keySize
    · rw [if_pos hlast] at hrun ⊢
      exact ⟨st, hrun, rfl, fun _ => rfl⟩
    rw [if_neg hlast] at hrun ⊢
    generalize freeColumns env keySize dataTypes (column + 1)
      (setBounded env leftKeys rightKeys dataTypes leftBounded rightBounded false column matched) = inner at *
    have hside : ∀ (lb rb : Bool) (key : F) (h : Hyperrectangle F) (part : BoolMask × Hyperrectangle F),
        forAnyHyperrectangle env keySize leftKeys rightKeys dataTypes callback {} lb rb (h.set column (env.ops.point key))
          (column + 1) = .ok part →
        ∃ part', forAnyHyperrectangle env keySize leftKeys rightKeys dataTypes callback initialMask lb rb
          (h.set column (env.ops.point key)) (column + 1) = .ok part' ∧ SameComponent sel part part' :=
      fun lb rb key h part hpart => ih (keySize - (column + 1)) (by omega) rfl hpart
    cases hinner : callback inner with
    | error e =>
      rw [hinner] at hrun
      cases hrun
    | ok mask =>
      rw [hinner] at hrun
      simp only [bind, Except.bind, BoolMask.empty_combine] at hrun ⊢
      have hmask : sel (BoolMask.combine initialMask mask) = sel mask := by rw [hsel.combine, hinitial, Bool.false_or]
      cases hselMask : sel mask with
      | true =>
        -- the run with the initial mask ends here
        rw [if_pos (hcomplete mask hselMask)]
        suffices hst : sel st.1 = true from
          ⟨_, rfl, (hmask.trans hselMask).trans hst.symm, fun h => absurd (hst.symm.trans h) (by decide)⟩
        split at hrun
        · obtain rfl := Except.ok.inj hrun
          exact hselMask
        · cases hleft : combineSide leftBounded (fun h => forAnyHyperrectangle env keySize leftKeys rightKeys dataTypes
              callback {} true false (h.set column (env.ops.point (leftKeys column))) (column + 1)) (mask, inner) with
          | error e =>
            rw [hleft] at hrun
            cases hrun
          | ok left =>
            rw [hleft] at hrun
            dsimp only at hrun
            have hselLeft := sel_combineSide hsel hleft hselMask
            split at hrun
            · exact Except.ok.inj hrun ▸ hselLeft
            · exact sel_combineSide hsel hrun hselLeft
      | false =>
        rw [if_neg (by rw [hnone hselMask]; decide)] at hrun
        rw [if_neg (by rw [hnone (hmask.trans hselMask)]; decide)]
        cases hleft : combineSide leftBounded (fun h => forAnyHyperrectangle env keySize leftKeys rightKeys dataTypes
            callback {} true false (h.set column (env.ops.point (leftKeys column))) (column + 1)) (mask, inner) with
        | error e =>
          rw [hleft] at hrun
          cases hrun
        | ok left =>
          rw [hleft] at hrun
          obtain ⟨left', hleft', hsame, m, hm⟩ := combineSide_sameComponent hsel hleft
            (fun h => forAnyHyperrectangle env keySize leftKeys rightKeys dataTypes callback initialMask true false
              (h.set column (env.ops.point (leftKeys column))) (column + 1)) (BoolMask.combine initialMask mask, inner)
            (hside true false (leftKeys column) inner) ⟨hmask, fun _ => rfl⟩ hselMask ⟨mask, rfl⟩
          rw [hleft']
          dsimp only at hrun ⊢
          cases hselLeft : sel left.1 with
          | true =>
            have hbounded : leftBounded = true := by
              rcases combineSide_eq_ok hleft with ⟨-, rfl⟩ | ⟨hbounded, -⟩
              · rw [hselMask] at hselLeft
                cases hselLeft
              · exact hbounded
            have hm' : sel m = true := by
              have h := hsame.sel_eq.trans hselLeft
              rwa [hm, hsel.combine, hinitial, Bool.false_or] at h
            rw [if_pos (by rw [hbounded, hm, hcomplete m hm']; rfl)]
            suffices hst : sel st.1 = true from
              ⟨left', rfl, (hsame.sel_eq.trans hselLeft).trans hst.symm, fun h => absurd (hst.symm.trans h) (by decide)⟩
            split at hrun
            · exact Except.ok.inj hrun ▸ hselLeft
            · exact sel_combineSide hsel hrun hselLeft
          | false =>
            rw [if_neg (by rw [hnone hselLeft, Bool.and_false]; decide)] at hrun
            rw [if_neg (by rw [hnone (hsame.sel_eq.trans hselLeft), Bool.and_false]; decide)]
            obtain ⟨last', hlast', hsame', -⟩ := combineSide_sameComponent hsel hrun
              (fun h => forAnyHyperrectangle env keySize leftKeys rightKeys dataTypes callback initialMask false true
                (h.set column (env.ops.point (rightKeys column))) (column + 1)) left'
              (hside false true (rightKeys column) left.2) hsame hselLeft ⟨m, hm⟩
            exact ⟨last', hlast', hsame'⟩

omit [BoundedOrder F] in
theorem exists_forAnyHyperrectangle_ok (env : KeyEnvironment F D) (keySize : ℕ) (leftKeys rightKeys : ℕ → F) (dataTypes : ℕ → D)
    (hcallback : ∀ box, ∃ mask, callback box = .ok mask) (initialMask : BoolMask) :
    ∀ (leftBounded rightBounded : Bool) (h : Hyperrectangle F) (prefixSize : ℕ), ∃ st,
      forAnyHyperrectangle env keySize leftKeys rightKeys dataTypes callback initialMask leftBounded rightBounded h prefixSize =
        .ok st := by
  intro leftBounded rightBounded h prefixSize
  induction hrest : keySize - prefixSize using Nat.strong_induction_on generalizing leftBounded rightBounded h prefixSize with
  | h rest ih =>
    have hle := le_skipMatching env keySize leftKeys rightKeys leftBounded rightBounded h prefixSize
    have hmap : ∀ box, ∃ st, (callback box).map (fun mask => (mask, box)) = .ok st := fun box => by
      obtain ⟨mask, hmask⟩ := hcallback box
      exact ⟨(mask, box), by rw [hmask]; rfl⟩
    have hside : ∀ (bounded : Bool) (side : Hyperrectangle F → Except String (BoolMask × Hyperrectangle F)) st,
        (∃ part, side st.2 = .ok part) → ∃ last, combineSide bounded side st = .ok last := by
      rintro bounded side st ⟨part, hpart⟩
      unfold combineSide
      split
      · exact ⟨_, by rw [hpart]; rfl⟩
      · exact ⟨st, rfl⟩
    rw [forAnyHyperrectangle]
    split
    · exact hmap h
    · dsimp only
      generalize (skipMatching env keySize leftKeys rightKeys leftBounded rightBounded h prefixSize).1 = column at *
      generalize (skipMatching env keySize leftKeys rightKeys leftBounded rightBounded h prefixSize).2 = matched
      split
      · exact hmap _
      · split
        · exact hmap _
        · generalize freeColumns env keySize dataTypes (column + 1)
            (setBounded env leftKeys rightKeys dataTypes leftBounded rightBounded false column matched) = inner
          obtain ⟨mask, hmask⟩ := hcallback inner
          rw [hmask]
          simp only [bind, Except.bind]
          split
          · exact ⟨_, rfl⟩
          · obtain ⟨left, hleft⟩ := hside leftBounded (fun h => forAnyHyperrectangle env keySize leftKeys rightKeys dataTypes
              callback initialMask true false (h.set column (env.ops.point (leftKeys column))) (column + 1))
              (BoolMask.combine initialMask mask, inner) (ih _ (by omega) true false _ _ rfl)
            rw [hleft]
            dsimp only
            split
            · exact ⟨_, rfl⟩
            · exact hside rightBounded (fun h => forAnyHyperrectangle env keySize leftKeys rightKeys dataTypes
                callback initialMask false true (h.set column (env.ops.point (rightKeys column))) (column + 1)) left
                (ih _ (by omega) false true _ _ rfl)

end Masks

/-- **The cut of a range of keys is exact, and early exits are harmless.** Without early exits the callback is
called on hyperrectangles that are apart from each other and hold the tuples between the bounds. For every callback the component
that the initial mask does not fix is the one computed without an initial mask. -/
theorem forAnyHyperrectangle_exact (hops : env.ops.Exact) (dataTypes : ℕ → D) (hkeys : LexLe 0 n leftKeys rightKeys) :
    ∃ boxes : List (Hyperrectangle F),
      (∀ callback : Hyperrectangle F → Except String BoolMask,
        (∀ box mask, callback box = .ok mask → mask.canBeTrue = false) ∨
            (∀ box mask, callback box = .ok mask → mask.canBeFalse = false) →
          (forAnyHyperrectangle env n leftKeys rightKeys dataTypes callback {} true true
            ((List.range n).map (columnUniverse env dataTypes)) 0).map Prod.fst = combineAll callback boxes) ∧
      boxes.Pairwise (Apart n) ∧
      (∀ t, IsValues n t → ((∃ box ∈ boxes, box.Contains t) ↔ LexLe 0 n leftKeys t ∧ LexLe 0 n t rightKeys)) ∧
      ∀ callback : Hyperrectangle F → Except String BoolMask,
        ((∀ box, ∃ mask, callback box = .ok mask) → ∀ initialMask, ∃ st,
          forAnyHyperrectangle env n leftKeys rightKeys dataTypes callback initialMask true true
            ((List.range n).map (columnUniverse env dataTypes)) 0 = .ok st) ∧
        ∀ st, forAnyHyperrectangle env n leftKeys rightKeys dataTypes callback {} true true
            ((List.range n).map (columnUniverse env dataTypes)) 0 = .ok st →
          (∃ st', forAnyHyperrectangle env n leftKeys rightKeys dataTypes callback BoolMask.considerOnlyCanBeTrue true true
              ((List.range n).map (columnUniverse env dataTypes)) 0 = .ok st' ∧ st'.1.canBeTrue = st.1.canBeTrue) ∧
            ∃ st', forAnyHyperrectangle env n leftKeys rightKeys dataTypes callback BoolMask.considerOnlyCanBeFalse true true
              ((List.range n).map (columnUniverse env dataTypes)) 0 = .ok st' ∧ st'.1.canBeFalse = st.1.canBeFalse := by
  have hlength : ((List.range n).map (columnUniverse env dataTypes)).length = n := by
    rw [List.length_map, List.length_range]
  have hpart := visited_spec hops leftKeys rightKeys dataTypes hlength (Nat.zero_le n) (show (true || true) = true from rfl)
    fun _ _ => hkeys
  refine ⟨_, fun callback hcallback => ?_, hpart.apart, fun t ht => ?_, fun callback =>
    ⟨fun h initialMask => ?_, fun st hrun => ⟨?_, ?_⟩⟩⟩
  · have hruns : Runs callback
        (visited env n leftKeys rightKeys dataTypes true true ((List.range n).map (columnUniverse env dataTypes)) 0)
        (forAnyHyperrectangle env n leftKeys rightKeys dataTypes callback {} true true
          ((List.range n).map (columnUniverse env dataTypes)) 0) := by
      rcases hcallback with h | h
      · exact forAnyHyperrectangle_eq_visited env n leftKeys rightKeys dataTypes canBeTrue_component h
      · exact forAnyHyperrectangle_eq_visited env n leftKeys rightKeys dataTypes canBeFalse_component h
    rw [hruns]
    cases combineAll callback _ <;> rfl
  · rw [hpart.covers t ht]
    exact ⟨fun ⟨_, hbetween⟩ => ⟨hbetween.left rfl, hbetween.right rfl⟩, fun ⟨hleft, hright⟩ =>
      ⟨fun i hi => absurd hi (Nat.not_lt_zero i), fun _ => hleft, fun _ => hright⟩⟩
  · exact exists_forAnyHyperrectangle_ok env n leftKeys rightKeys dataTypes h initialMask true true _ 0
  · obtain ⟨st', hrun', hsame⟩ := sel_forAnyHyperrectangle env n leftKeys rightKeys dataTypes callback canBeTrue_component
      (show BoolMask.considerOnlyCanBeTrue.canBeTrue = false from rfl) (fun _ => BoolMask.considerOnlyCanBeTrue_isComplete) hrun
    exact ⟨st', hrun', hsame.sel_eq⟩
  · obtain ⟨st', hrun', hsame⟩ := sel_forAnyHyperrectangle env n leftKeys rightKeys dataTypes callback canBeFalse_component
      (show BoolMask.considerOnlyCanBeFalse.canBeFalse = false from rfl) (fun _ => BoolMask.considerOnlyCanBeFalse_isComplete) hrun
    exact ⟨st', hrun', hsame.sel_eq⟩

theorem plainRanges_exact : (plainRanges : RangeOps F).Exact where
  point y x hbot htop := by
    rw [Range.contains_value htop]
    unfold plainRanges
    constructor
    · rintro ⟨hleft, hright⟩
      exact le_antisymm (hleft.elim le_of_lt fun h => h.1.le) (hright.elim le_of_lt fun h => h.1.le)
    · rintro rfl
      exact ⟨Or.inr ⟨rfl, rfl⟩, Or.inr ⟨rfl, rfl⟩⟩
  between l li r ri x _ htop := Range.contains_value htop
  wholeUniverse x hbot _ := plainRanges_sound.wholeUniverse x hbot
  wholeUniverseWithoutNull x hbot htop := plainRanges_sound.wholeUniverseWithoutNull x hbot htop
  leftBounded l included withNull x _ htop := by
    rw [Range.contains_value htop]
    exact and_iff_left (Or.inl (lt_top_iff_ne_top.2 htop))
  rightBounded r included withNull x hbot htop := by
    rw [Range.contains_value htop]
    exact and_iff_right (Or.inl (bot_lt_iff_ne_bot.2 hbot))

end Cut

theorem forAnyHyperrectangle_exact_pair :
    ∃ boxes : List (Hyperrectangle IntField), boxes.Pairwise (Apart 2) ∧ ∃ box ∈ boxes, box.Contains (intPair 5 2) := by
  have hkeys : LexLe 0 2 (intPair 3 1) (intPair 9 0) := lexLe_intPair (by decide)
  have hops : integerKeys.env.ops.Exact := plainRanges_exact
  obtain ⟨boxes, -, hapart, hcovers, -⟩ := forAnyHyperrectangle_exact hops integerKeys.dataTypes hkeys
  refine ⟨boxes, hapart, (hcovers (intPair 5 2) fun i hi => ?_).2 ⟨lexLe_intPair (by decide), lexLe_intPair (by decide)⟩⟩
  interval_cases i <;> exact ⟨nofun, nofun⟩

end MergeTree
