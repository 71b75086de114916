import MergeTree.Lib.Sorting

/-!
# Heaps with an unspecified layout

A priority queue is known by its law only: when the comparator orders the elements by a key,
the element that is popped has the greatest key. What comes first among equal keys is up to
the heap.
-/

namespace MergeTree

/-- **A heap**, `std::priority_queue`: a list in the order of its layout. -/
structure StdHeap where
  push : {α : Type} → (less : α → α → Bool) → α → List α → List α
  pop : {α : Type} → (less : α → α → Bool) → List α → Option (α × List α)
  push_perm : ∀ {α : Type} (less : α → α → Bool) (a : α) (queue : List α), (push less a queue).Perm (a :: queue)
  pop_nil : ∀ {α : Type} (less : α → α → Bool), pop less [] = none
  lawful : ∀ {α κ : Type} [LinearOrder κ] (less : α → α → Bool) (key : α → κ) (queue : List α), queue ≠ [] →
    (∀ a ∈ queue, ∀ b ∈ queue, less a b = decide (key a < key b)) →
      ∃ top rest, pop less queue = some (top, rest) ∧ queue.Perm (top :: rest) ∧ ∀ a ∈ queue, key a ≤ key top

namespace StdHeap

variable (heap : StdHeap) {α κ : Type} [LinearOrder κ] (less : α → α → Bool)

/-- A queue with these elements pushed one after the other. -/
def pushAll (l : List α) : List α := l.foldl (fun queue a => heap.push less a queue) []

/-- The elements in the order they are popped. -/
def drain : ℕ → List α → List α
  | 0, _ => []
  | size + 1, queue =>
    match heap.pop less queue with
    | some (top, rest) => top :: drain size rest
    | none => []

variable {heap less} {key : α → κ} {l queue : List α}

omit [LinearOrder κ] in
theorem pushAll_perm : (heap.pushAll less l).Perm l := by
  have hfold : ∀ (l queue : List α), (l.foldl (fun queue a => heap.push less a queue) queue).Perm (queue ++ l) := by
    intro l
    induction l with
    | nil =>
      intro queue
      rw [List.append_nil]
      exact List.Perm.refl _
    | cons a l ih =>
      intro queue
      refine (ih _).trans ?_
      exact ((heap.push_perm less a queue).append_right l).trans List.perm_middle.symm
  exact hfold l []

variable (heap) (key) in
/-- **Draining a heap sorts it**, the greatest key first. -/
theorem drain_spec (hless : ∀ a ∈ queue, ∀ b ∈ queue, less a b = decide (key a < key b)) :
    (heap.drain less queue.length queue).Perm queue ∧
      (heap.drain less queue.length queue).Pairwise fun a b => key b ≤ key a := by
  induction hlength : queue.length generalizing queue with
  | zero =>
    obtain rfl := List.length_eq_zero_iff.1 hlength
    exact ⟨List.Perm.refl _, List.Pairwise.nil⟩
  | succ size ih =>
    have hne : queue ≠ [] := by
      rintro rfl
      cases hlength
    obtain ⟨top, rest, hpop, hperm, hgreatest⟩ := heap.lawful less key queue hne hless
    have hrest : rest.length = size := by
      have hcount := hperm.length_eq
      rw [hlength, List.length_cons] at hcount
      omega
    have hmem : ∀ a ∈ rest, a ∈ queue := fun a ha => hperm.mem_iff.2 (List.mem_cons_of_mem _ ha)
    obtain ⟨hdrain, hsorted⟩ := ih (fun a ha b hb => hless a (hmem a ha) b (hmem b hb)) hrest
    unfold drain
    rw [hpop]
    refine ⟨(hdrain.cons top).trans hperm.symm, List.pairwise_cons.2 ⟨fun a ha => ?_, hsorted⟩⟩
    exact hgreatest a (hmem a (hdrain.mem_iff.1 ha))

/-- A heap that sorts whenever it pops, an instance for concrete inputs. -/
def sorting : StdHeap where
  push _ a queue := a :: queue
  pop less queue :=
    match (StdSort.insertion.sort less queue).reverse with
    | [] => none
    | top :: rest => some (top, rest)
  push_perm _ _ _ := List.Perm.refl _
  pop_nil _ := rfl
  lawful := by
    intro α κ _ less key queue hne hless
    obtain ⟨hperm, hsorted⟩ := StdSort.insertion.lawful less key queue hless
    match hreverse : (StdSort.insertion.sort less queue).reverse with
    | [] =>
      rw [List.reverse_eq_nil_iff] at hreverse
      rw [hreverse] at hperm
      exact absurd hperm.nil_eq.symm hne
    | top :: rest =>
      have hdescending := List.pairwise_reverse.2 (hsorted.imp fun h => h)
      have hqueue : queue.Perm (top :: rest) := hreverse ▸ (hperm.symm.trans (List.reverse_perm _).symm)
      rw [hreverse, List.pairwise_cons] at hdescending
      refine ⟨top, rest, rfl, hqueue, fun a ha => ?_⟩
      rcases List.mem_cons.1 (hqueue.mem_iff.1 ha) with rfl | ha
      · exact le_rfl
      · exact hdescending.1 a ha

end StdHeap

end MergeTree
