import MergeTree.Lib.KeyedSet

/-!
# Folding in any order and grouping

`FoldOf update init l x` says that `x` was folded from the elements of `l`, in this order but
with any grouping: a group is folded from `init` by itself and then taken as an element. What
is seen of the result through a commutative and associative operation is the same for every
order and grouping (`FoldOf.observed`). `KeyedMap` is an ordered map; entries are combined
one by one (`upsertAll`), which is a pointwise combination (`lookup_upsertAll`) and adds
up in every total over the entries (`total_upsertAll`).
-/

/-- **A fold with any grouping.** -/
inductive FoldOf {X : Type*} (update : X → X → X) (init : X) : List X → X → Prop
  | single (i : X) : FoldOf update init [i] (update init i)
  | group {l : List X} {x : X} (h : FoldOf update init l x) : FoldOf update init l (update init x)
  | snoc {l : List X} {x : X} (h : FoldOf update init l x) (i : X) : FoldOf update init (l ++ [i]) (update x i)
  | append {l m : List X} {x y : X} (hl : FoldOf update init l x) (hm : FoldOf update init m y) :
      FoldOf update init (l ++ m) (update x y)

/-- **What is seen of a fold**: an element that satisfies `valid` adds `val`, and an accumulator that satisfies `kept`
shows `obs`. -/
structure Observes {X M : Type*} (update : X → X → X) (init : X) (valid kept : X → Prop) (obs val : X → M) (op : M → M → M)
    (e : M) : Prop where
  init_kept : kept init
  init_obs : obs init = e
  update_kept : ∀ {x y}, kept x → valid y → kept (update x y)
  update_valid : ∀ {x y}, kept x → valid y → valid (update x y)
  update_obs : ∀ {x y}, kept x → valid y → obs (update x y) = op (obs x) (val y)
  update_val : ∀ {x y}, kept x → valid y → val (update x y) = obs (update x y)

namespace FoldOf

variable {X M : Type*} {update : X → X → X} {init x y : X} {valid kept : X → Prop} {obs val : X → M} {op : M → M → M} {e : M}
  {l m : List X}

theorem foldl_perm [Std.Commutative op] [Std.Associative op] {l l' : List M} (h : l.Perm l') : l.foldl op e = l'.foldl op e := by
  refine h.foldl_eq' (fun a _ b _ z => ?_) e
  rw [@Std.Associative.assoc M op _, @Std.Commutative.comm M op _ a b, ← @Std.Associative.assoc M op _]

theorem foldl_op [Std.Commutative op] [Std.Associative op] (he : op e e = e) (a : M) (vs ws : List M) :
    op (vs.foldl op (op e a)) (ws.foldl op e) = (vs ++ ws).foldl op (op e a) := by
  have hstart : ∀ (ws : List M) (a b : M), op a (ws.foldl op b) = ws.foldl op (op a b) := by
    intro ws
    induction ws with
    | nil => exact fun a b => rfl
    | cons w ws ih =>
      intro a b
      rw [List.foldl_cons, List.foldl_cons, ih, @Std.Associative.assoc M op _]
  have hright : ∀ (vs : List M) (a : M), op (vs.foldl op (op e a)) e = vs.foldl op (op e a) := by
    intro vs a
    rw [@Std.Commutative.comm M op _, hstart, ← @Std.Associative.assoc M op _, he]
  rw [List.foldl_append, hstart, hright]

/-- **What is seen of a fold does not depend on its grouping.** -/
theorem observed [Std.Commutative op] [Std.Associative op] (he : op e e = e)
    (hobs : Observes update init valid kept obs val op e) (h : FoldOf update init l x) (hl : ∀ i ∈ l, valid i) :
    valid x ∧ kept x ∧ val x = obs x ∧ obs x = (l.map val).foldl op e := by
  have hleft : ∀ vs : List M, op e (vs.foldl op e) = vs.foldl op e := by
    intro vs
    have hjoin := foldl_op he e [] vs
    rw [he] at hjoin
    exact hjoin
  induction h with
  | single i =>
    have hi := hl i List.mem_cons_self
    exact ⟨hobs.update_valid hobs.init_kept hi, hobs.update_kept hobs.init_kept hi, hobs.update_val hobs.init_kept hi,
      (hobs.update_obs hobs.init_kept hi).trans (by rw [hobs.init_obs]; rfl)⟩
  | group h ih =>
    obtain ⟨hvalid, -, hval, hfold⟩ := ih hl
    refine ⟨hobs.update_valid hobs.init_kept hvalid, hobs.update_kept hobs.init_kept hvalid, hobs.update_val hobs.init_kept hvalid, ?_⟩
    rw [hobs.update_obs hobs.init_kept hvalid, hobs.init_obs, hval, hfold, hleft]
  | snoc h i ih =>
    obtain ⟨-, hkept, -, hfold⟩ := ih fun j hj => hl j (List.mem_append_left _ hj)
    have hi := hl i (List.mem_append_right _ List.mem_cons_self)
    refine ⟨hobs.update_valid hkept hi, hobs.update_kept hkept hi, hobs.update_val hkept hi, ?_⟩
    rw [hobs.update_obs hkept hi, hfold, List.map_append, List.foldl_append]
    rfl
  | append h h' ih ih' =>
    obtain ⟨-, hkept, -, hfold⟩ := ih fun j hj => hl j (List.mem_append_left _ hj)
    obtain ⟨hvalid, -, hval, hfold'⟩ := ih' fun j hj => hl j (List.mem_append_right _ hj)
    refine ⟨hobs.update_valid hkept hvalid, hobs.update_kept hkept hvalid, hobs.update_val hkept hvalid, ?_⟩
    have hjoin := foldl_op he e
    rw [he] at hjoin
    rw [hobs.update_obs hkept hvalid, hval, hfold, hfold', List.map_append, hjoin]

/-- **Nor on its order.** -/
theorem obs_eq_of_perm [Std.Commutative op] [Std.Associative op] (he : op e e = e)
    (hobs : Observes update init valid kept obs val op e) (hx : FoldOf update init l x) (hy : FoldOf update init m y)
    (hl : ∀ i ∈ l, valid i) (hperm : l.Perm m) : obs x = obs y := by
  obtain ⟨-, -, -, hfoldx⟩ := hx.observed he hobs hl
  obtain ⟨-, -, -, hfoldy⟩ := hy.observed he hobs fun i hi => hl i (hperm.mem_iff.2 hi)
  rw [hfoldx, hfoldy, foldl_perm (hperm.map val)]

end FoldOf

/-! ## Maps -/

/-- **An ordered map**, `std::map`. -/
abbrev KeyedMap (K V : Type*) [LinearOrder K] : Type _ := KeyedSet (Prod.fst : K × V → K)

namespace KeyedMap

variable {K V : Type*} [LinearOrder K] {m : KeyedMap K V} {k k' : K} {v : V}

/-- The value of a key. -/
def lookup (m : KeyedMap K V) (k : K) : Option V := (m.find k).map Prod.snd

/-- `m[k]` is set to what is made of the value there. -/
def upsert (m : KeyedMap K V) (k : K) (f : Option V → V) : KeyedMap K V :=
  KeyedSet.emplace (KeyedSet.erase m k) (k, f (lookup m k))

theorem lookup_eq_some : lookup m k = some v ↔ (k, v) ∈ m := by
  unfold lookup
  rw [Option.map_eq_some_iff]
  constructor
  · rintro ⟨⟨k', v'⟩, hfind, rfl⟩
    obtain ⟨hmem, rfl⟩ := KeyedSet.find_eq_some.1 hfind
    exact hmem
  · intro hmem
    exact ⟨(k, v), KeyedSet.find_eq_some.2 ⟨hmem, rfl⟩, rfl⟩

theorem lookup_eq_none : lookup m k = none ↔ ∀ v, (k, v) ∉ m := by
  rw [Option.eq_none_iff_forall_ne_some]
  exact forall_congr' fun v => not_congr lookup_eq_some

theorem ext_lookup {m' : KeyedMap K V} (h : ∀ k, lookup m k = lookup m' k) : m = m' := by
  refine KeyedSet.ext (KeyedSet.toList_eq_of_mem m'.sorted fun ⟨k, v⟩ => ?_)
  rw [← lookup_eq_some, h k, lookup_eq_some]
  exact Iff.rfl

theorem lookup_upsert (m : KeyedMap K V) (k k' : K) (f : Option V → V) :
    lookup (upsert m k f) k' = if k' = k then some (f (lookup m k)) else lookup m k' := by
  have hmem : ∀ v, (k', v) ∈ upsert m k f ↔ (k', v) = (k, f (lookup m k)) ∨ (k', v) ∈ m ∧ k' ≠ k :=
    fun v => KeyedSet.mem_emplace_erase
  split
  · rename_i heq
    subst heq
    exact lookup_eq_some.2 ((hmem _).2 (Or.inl rfl))
  · rename_i hne
    refine Option.ext fun v => ?_
    rw [lookup_eq_some, lookup_eq_some, hmem]
    constructor
    · rintro (heq | ⟨hin, -⟩)
      · exact absurd (Prod.mk.inj heq).1 hne
      · exact hin
    · exact fun hin => Or.inr ⟨hin, hne⟩

theorem upsert_perm (m : KeyedMap K V) (k : K) (f : Option V → V) :
    (upsert m k f).toList.Perm ((k, f (lookup m k)) :: (KeyedSet.erase m k).toList) := by
  have hnew : ∀ b ∈ KeyedSet.erase m k, b.1 ≠ k := fun b hb => (KeyedSet.mem_erase.1 hb).2
  unfold upsert
  rw [KeyedSet.toList_emplace_of_new hnew]
  refine List.perm_middle.trans ?_
  rw [KeyedSet.below_append_above]

theorem erase_perm (h : lookup m k = some v) : m.toList.Perm ((k, v) :: (KeyedSet.erase m k).toList) := by
  have hnodup : m.toList.Nodup := m.sorted.imp fun hlt heq => hlt.ne (congrArg Prod.fst heq)
  have hnodupErase : (KeyedSet.erase m k).toList.Nodup :=
    (KeyedSet.erase m k).sorted.imp fun hlt heq => hlt.ne (congrArg Prod.fst heq)
  have hnot : (k, v) ∉ (KeyedSet.erase m k).toList := fun hmem => (KeyedSet.mem_erase.1 hmem).2 rfl
  refine (List.perm_ext_iff_of_nodup hnodup (List.nodup_cons.2 ⟨hnot, hnodupErase⟩)).2 fun ⟨k', v'⟩ => ?_
  have herase : (k', v') ∈ (KeyedSet.erase m k).toList ↔ (k', v') ∈ m ∧ k' ≠ k := KeyedSet.mem_erase
  rw [List.mem_cons, herase]
  constructor
  · intro hmem
    by_cases heq : k' = k
    · subst heq
      have hv : lookup m k' = some v' := lookup_eq_some.2 hmem
      rw [h] at hv
      exact Or.inl (by rw [Option.some.inj hv])
    · exact Or.inr ⟨hmem, heq⟩
  · rintro (heq | ⟨hmem, -⟩)
    · obtain ⟨rfl, rfl⟩ := Prod.mk.inj heq
      exact lookup_eq_some.1 h
    · exact hmem

theorem erase_eq_self (h : lookup m k = none) : (KeyedSet.erase m k).toList = m.toList := by
  refine KeyedSet.toList_eq_of_mem m.sorted fun ⟨k', v'⟩ => ?_
  rw [KeyedSet.mem_erase]
  refine ⟨And.left, fun hmem => ⟨hmem, ?_⟩⟩
  rintro rfl
  exact lookup_eq_none.1 h v' hmem

theorem toList_foldl_emplace : ∀ {l : List (K × V)} {m : KeyedMap K V}, (m.toList ++ l).Pairwise (fun a b => a.1 < b.1) →
    (l.foldl KeyedSet.emplace m).toList = m.toList ++ l := by
  intro l
  induction l with
  | nil => exact fun _ => (List.append_nil _).symm
  | cons x l ih =>
    intro m h
    obtain ⟨-, -, hcross⟩ := List.pairwise_append.1 h
    have hnew : ∀ b ∈ m, b.1 ≠ x.1 := fun b hb => (hcross b hb x List.mem_cons_self).ne
    have hlast : (KeyedSet.emplace m x).toList = m.toList ++ [x] := by
      refine KeyedSet.toList_eq_of_mem ?_ fun a => ?_
      · refine List.Pairwise.sublist ?_ h
        exact List.Sublist.append_left (List.singleton_sublist.2 List.mem_cons_self) _
      · rw [KeyedSet.mem_emplace, List.mem_append, List.mem_singleton]
        exact or_congr_right ⟨And.left, fun heq => ⟨heq, hnew⟩⟩
    have happend : (KeyedSet.emplace m x).toList ++ l = m.toList ++ x :: l := by
      rw [hlast, List.append_assoc]
      rfl
    rw [List.foldl_cons, ih (happend ▸ h), happend]

theorem foldl_emplace_empty (m : KeyedMap K V) : m.toList.foldl KeyedSet.emplace (KeyedSet.empty : KeyedMap K V) = m :=
  KeyedSet.ext (toList_foldl_emplace m.sorted)

/-- The entries of another map, one by one. -/
def upsertAll (f : V → Option V → V) (m m' : KeyedMap K V) : KeyedMap K V :=
  m'.toList.foldl (fun m x => upsert m x.1 (f x.2)) m

theorem lookup_foldl_upsert (f : V → Option V → V) (k : K) :
    ∀ {l : List (K × V)} {m : KeyedMap K V}, (l.map Prod.fst).Nodup →
      lookup (l.foldl (fun m x => upsert m x.1 (f x.2)) m) k =
        match l.find? fun x => x.1 = k with
        | some x => some (f x.2 (lookup m k))
        | none => lookup m k := by
  intro l
  induction l with
  | nil => exact fun _ => rfl
  | cons x l ih =>
    intro m hnodup
    rw [List.map_cons, List.nodup_cons] at hnodup
    rw [List.foldl_cons, ih hnodup.2, List.find?_cons, lookup_upsert]
    by_cases hx : x.1 = k
    · have hrest : l.find? (fun y => decide (y.1 = k)) = none := by
        refine List.find?_eq_none.2 fun y hy hyk => hnodup.1 ?_
        rw [hx, ← of_decide_eq_true hyk]
        exact List.mem_map_of_mem hy
      rw [hrest, decide_eq_true hx, if_pos hx.symm, hx]
    · rw [decide_eq_false hx, if_neg fun h => hx h.symm]

/-- **The maps are combined pointwise.** -/
theorem lookup_upsertAll (f : V → Option V → V) (m m' : KeyedMap K V) (k : K) :
    lookup (upsertAll f m m') k =
      match lookup m' k with
      | some v => some (f v (lookup m k))
      | none => lookup m k := by
  have hnodup : (m'.toList.map Prod.fst).Nodup := List.pairwise_map.2 (m'.sorted.imp fun hlt => hlt.ne)
  unfold upsertAll
  rw [lookup_foldl_upsert f k hnodup]
  change _ = match (m'.toList.find? fun x => decide (x.1 = k)).map Prod.snd with
    | some v => some (f v (lookup m k))
    | none => lookup m k
  cases m'.toList.find? fun x => decide (x.1 = k) <;> rfl

section Totals

variable {M : Type*} {op : M → M → M} {e : M} [Std.Commutative op] [Std.Associative op] [Std.LawfulIdentity op e]

/-- What all values add up to. -/
def total (op : M → M → M) (e : M) (weight : V → M) (m : KeyedMap K V) : M := (m.toList.map fun x => weight x.2).foldl op e

omit [Std.Commutative op] in
theorem foldl_eq_op (a : M) (l : List M) : l.foldl op a = op a (l.foldl op e) := by
  induction l generalizing a with
  | nil => exact (@Std.LawfulRightIdentity.right_id M M op e _ a).symm
  | cons b l ih =>
    rw [List.foldl_cons, List.foldl_cons, ih (op a b), ih (op e b), @Std.LawfulLeftIdentity.left_id M M op e _ b,
      @Std.Associative.assoc M op _]

theorem total_upsert {weight : V → M} {c : M} {f : Option V → V} (m : KeyedMap K V) (k : K)
    (hf : weight (f (lookup m k)) = op (((lookup m k).map weight).getD e) c) :
    total op e weight (upsert m k f) = op (total op e weight m) c := by
  have hnew : total op e weight (upsert m k f) =
      op (weight (f (lookup m k))) (((KeyedSet.erase m k).toList.map fun x => weight x.2).foldl op e) := by
    unfold total
    rw [FoldOf.foldl_perm ((upsert_perm m k f).map fun x => weight x.2), List.map_cons, List.foldl_cons,
      @Std.LawfulLeftIdentity.left_id M M op e _, foldl_eq_op (e := e)]
  rw [hnew, hf]
  cases hlookup : lookup m k with
  | none =>
    unfold total
    rw [erase_eq_self hlookup, Option.map_none, Option.getD_none, @Std.LawfulLeftIdentity.left_id M M op e _,
      @Std.Commutative.comm M op _]
  | some v =>
    have hold : total op e weight m = op (weight v) (((KeyedSet.erase m k).toList.map fun x => weight x.2).foldl op e) := by
      unfold total
      rw [FoldOf.foldl_perm ((erase_perm hlookup).map fun x => weight x.2), List.map_cons, List.foldl_cons,
        @Std.LawfulLeftIdentity.left_id M M op e _, foldl_eq_op (e := e)]
    rw [hold, Option.map_some, Option.getD_some, @Std.Associative.assoc M op _, @Std.Associative.assoc M op _,
      @Std.Commutative.comm M op _ c]

/-- **The totals add up**, if the values in question satisfy `P`. -/
theorem total_upsertAll {weight : V → M} {f : V → Option V → V} (P : V → Prop)
    (hP : ∀ v old, P v → (∀ o ∈ old, P o) → P (f v old))
    (hf : ∀ v old, P v → (∀ o ∈ old, P o) → weight (f v old) = op ((old.map weight).getD e) (weight v))
    {m m' : KeyedMap K V} (hm : ∀ k v, lookup m k = some v → P v) (hm' : ∀ k v, lookup m' k = some v → P v) :
    total op e weight (upsertAll f m m') = op (total op e weight m) (total op e weight m') := by
  have hm' : ∀ x ∈ m'.toList, P x.2 := fun x hx => hm' x.1 x.2 (lookup_eq_some.2 hx)
  unfold upsertAll
  rw [total.eq_def op e weight m']
  generalize m'.toList = l at *
  induction l generalizing m with
  | nil => exact (@Std.LawfulRightIdentity.right_id M M op e _ _).symm
  | cons x l ih =>
    have hx := hm' x List.mem_cons_self
    have hold : ∀ o ∈ lookup m x.1, P o := fun o ho => hm x.1 o ho
    have hnext : ∀ k v, lookup (upsert m x.1 (f x.2)) k = some v → P v := by
      intro k v h
      rw [lookup_upsert] at h
      split at h
      · exact Option.some.inj h ▸ hP x.2 _ hx hold
      · exact hm k v h
    rw [List.foldl_cons, ih hnext fun y hy => hm' y (List.mem_cons_of_mem _ hy), total_upsert m x.1 (hf x.2 _ hx hold),
      List.map_cons, List.foldl_cons, @Std.LawfulLeftIdentity.left_id M M op e _, foldl_eq_op (e := e) (weight x.2),
      @Std.Associative.assoc M op _]

end Totals

end KeyedMap
