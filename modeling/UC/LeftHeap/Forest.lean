import Mathlib.Algebra.Order.Group.Multiset
import UC.Lib.Histories
import UC.LeftHeap.Model

/- merge of two leftist heaps ends, with a leftist heap of the elements of both; so every heap
   of a forest is one, and deleteMin takes one smallest element away. -/
namespace UC.LeftHeap
open UC.Memory UC.Histories UC.LeftHeap.PriorityQueue

structure Heap (queue : PriorityQueue) : Prop where
  ordered : Ordered queue
  leftist : Leftist queue

/-- queue is what merging the two heaps should give. -/
structure Merged (queue1 queue2 queue : PriorityQueue) : Prop where
  heap : Heap queue
  elements : elements queue = elements queue1 + elements queue2
  least : ∀ x, AtLeast x queue1 → AtLeast x queue2 → AtLeast x queue

section Shape
variable {x element stored : Int} {left right queue queue1 queue2 : PriorityQueue}

theorem heap_null : Heap NULL := ⟨trivial, trivial⟩

theorem heap_single (x : Int) : Heap (node x NULL NULL 0) :=
  ⟨⟨trivial, trivial, trivial, trivial⟩, by simp [npl], rfl, trivial, trivial⟩

theorem heap_left (heap : Heap (node element left right stored)) : Heap left :=
  ⟨heap.ordered.2.2.1, heap.leftist.2.2.1⟩

theorem heap_right (heap : Heap (node element left right stored)) : Heap right :=
  ⟨heap.ordered.2.2.2, heap.leftist.2.2.2⟩

theorem npl_low (leftist : Leftist queue) : -1 ≤ npl queue := by
  induction queue with
  | NULL => simp [npl]
  | node element left right stored il ir =>
    have lowest := ir leftist.2.2.2
    have here := leftist.2.1
    simp only [npl]
    omega

theorem right_null (leftist : Leftist (node element NULL right stored)) : right = NULL := by
  cases right with
  | NULL => rfl
  | node x l r n =>
    have low := leftist.1
    have inner := leftist.2.2.2
    have lowest := npl_low inner.2.2.2
    have here := inner.2.1
    simp only [npl] at low
    omega

@[simp] theorem npl_node : npl (node element left right stored) = stored := rfl

theorem elements_node : elements (node element left right stored) =
    element ::ₘ (elements left + elements right) := rfl

@[simp] theorem read_npl_node : readNpl (node element left right stored) = some stored := rfl

theorem read_npl (present : queue ≠ NULL) : readNpl queue = some (npl queue) := by
  cases queue with
  | NULL => exact absurd rfl present
  | node => rfl

theorem least_le (ordered : Ordered queue) (least : AtLeast x queue) :
    ∀ y ∈ elements queue, x ≤ y := by
  induction queue generalizing x with
  | NULL => simp [elements]
  | node element left right stored il ir =>
    intro y inside
    simp only [elements, Multiset.mem_cons, Multiset.mem_add] at inside
    have below : x ≤ element := least
    rcases inside with rfl | inside | inside
    · exact below
    · exact below.trans (il ordered.2.2.1 ordered.1 y inside)
    · exact below.trans (ir ordered.2.2.2 ordered.2.1 y inside)

/-- A node over two heaps, with the children either way round. -/
theorem heap_node (left_heap : Heap left) (right_heap : Heap right)
    (least_left : AtLeast element left) (least_right : AtLeast element right)
    (leans : npl right ≤ npl left) : Heap (node element left right (npl right + 1)) :=
  ⟨⟨least_left, least_right, left_heap.ordered, right_heap.ordered⟩,
    leans, rfl, left_heap.leftist, right_heap.leftist⟩

theorem merged_present (merged : Merged queue1 queue2 queue) (present : queue2 ≠ NULL) :
    queue ≠ NULL := by
  rintro rfl
  cases queue2 with
  | NULL => exact present rfl
  | node y l r n =>
    have same := merged.elements
    simp [elements] at same

end Shape

section Merge
variable {element stored : Int} {left right queue1 queue2 : PriorityQueue}

/-- merge1, when its recursive call does what it should. -/
theorem merge1_merges (first : Heap (node element left right stored)) (second : Heap queue2)
    (present : queue2 ≠ NULL) (least : AtLeast element queue2)
    (recur : ∃ queue, merge right queue2 = some queue ∧ Merged right queue2 queue) :
    ∃ queue, merge1 (node element left right stored) queue2 = some queue ∧
      Merged (node element left right stored) queue2 queue := by
  cases left with
  | NULL =>
    have none_right := right_null first.leftist
    subst none_right
    have here : stored = npl NULL + 1 := first.leftist.2.1
    subst here
    refine ⟨node element queue2 NULL (npl NULL + 1), by simp [merge1], ?_, ?_, ?_⟩
    · exact heap_node second heap_null least trivial (npl_low second.leftist)
    · simp [elements]
    · exact fun x low _ => low
  | node y l r n =>
    obtain ⟨merged, ran, good⟩ := recur
    have there := merged_present good present
    have least_left : AtLeast element (node y l r n) := first.ordered.1
    have least_merged := good.least element first.ordered.2.1 least
    by_cases leans : n < npl merged
    · refine ⟨node element merged (node y l r n) (npl (node y l r n) + 1), ?_, ?_, ?_, ?_⟩
      · simp [merge1, ran, read_npl there, leans, swapChild, setNpl]
      · exact heap_node good.heap (heap_left first) least_merged least_left (Int.le_of_lt leans)
      · rw [elements_node, good.elements, @elements_node element, Multiset.cons_add]
        congr 1
        exact (add_comm _ _).trans (add_assoc _ _ _).symm
      · exact fun x low _ => low
    · refine ⟨node element (node y l r n) merged (npl merged + 1), ?_, ?_, ?_, ?_⟩
      · simp [merge1, ran, read_npl there, leans, setNpl]
      · exact heap_node (heap_left first) good.heap least_left least_merged (Int.not_lt.mp leans)
      · rw [elements_node, good.elements, @elements_node element, Multiset.cons_add]
        congr 1
        exact (add_assoc _ _ _).symm
      · exact fun x low _ => low

theorem merged_symm {queue : PriorityQueue} (merged : Merged queue1 queue2 queue) :
    Merged queue2 queue1 queue :=
  ⟨merged.heap, merged.elements.trans (add_comm _ _), fun x first second =>
    merged.least x second first⟩

/-- By induction on the number of nodes of both heaps. -/
theorem merge_merges (first : Heap queue1) (second : Heap queue2) :
    ∃ queue, merge queue1 queue2 = some queue ∧ Merged queue1 queue2 queue := by
  induction nodes : size queue1 + size queue2 using Nat.strongRecOn generalizing queue1 queue2 with
  | ind n ih =>
    cases queue1 with
    | NULL =>
      exact ⟨queue2, by simp [merge], second, by simp [elements], fun _ _ low => low⟩
    | node x1 l1 r1 n1 =>
      cases queue2 with
      | NULL =>
        exact ⟨node x1 l1 r1 n1, by simp [merge], first, by simp [elements], fun _ low _ => low⟩
      | node x2 l2 r2 n2 =>
        simp only [size] at nodes
        by_cases smaller : x1 < x2
        · have recur := ih (size r1 + size (node x2 l2 r2 n2)) (by simp only [size]; omega)
            (heap_right first) second rfl
          have merged := merge1_merges first second (by simp) (Int.le_of_lt smaller) recur
          simpa [merge, smaller] using merged
        · have recur := ih (size r2 + size (node x1 l1 r1 n1)) (by simp only [size]; omega)
            (heap_right second) first rfl
          have least : AtLeast x2 (node x1 l1 r1 n1) := Int.not_lt.mp smaller
          obtain ⟨queue, ran, merged⟩ := merge1_merges second first (by simp) least recur
          exact ⟨queue, by simpa [merge, smaller] using ran, merged_symm merged⟩

end Merge

section Calls
variable {isEmpty : PriorityQueue → Bool} {queue : PriorityQueue}

theorem insert1_merges (allocated : Bool) (x : Int) (heap : Heap queue) :
    ∃ after, insert1 allocated x queue = some after ∧ Heap after ∧
      elements after = if allocated then x ::ₘ elements queue else elements queue := by
  cases allocated with
  | false => exact ⟨queue, rfl, heap, rfl⟩
  | true =>
    obtain ⟨after, ran, merged⟩ := merge_merges (heap_single x) heap
    refine ⟨after, ran, merged.heap, ?_⟩
    rw [merged.elements]
    simp [elements]

variable (tells : ∀ queue, isEmpty queue = true ↔ queue = NULL)
include tells

theorem delete_min_removes (heap : Heap queue) (present : queue ≠ NULL) :
    ∃ least after, deleteMin isEmpty queue = some after ∧ Heap after ∧
      elements queue = least ::ₘ elements after ∧ ∀ x ∈ elements queue, least ≤ x := by
  have full : ¬ isEmpty queue = true := fun empty => present ((tells queue).mp empty)
  cases queue with
  | NULL => exact absurd rfl present
  | node element left right stored =>
    obtain ⟨after, ran, merged⟩ := merge_merges (heap_left heap) (heap_right heap)
    refine ⟨element, after, by simp [deleteMin, full, ran], merged.heap, ?_, ?_⟩
    · rw [elements_node, merged.elements]
    · exact least_le heap.ordered (Int.le_refl element)

theorem delete_min_heap (heap : Heap queue) :
    ∃ after, deleteMin isEmpty queue = some after ∧ Heap after := by
  by_cases present : queue = NULL
  · subst present
    have empty := (tells NULL).mpr rfl
    exact ⟨NULL, by simp [deleteMin, empty], heap_null⟩
  · obtain ⟨_, after, ran, still, _⟩ := delete_min_removes tells heap present
    exact ⟨after, ran, still⟩

theorem call_heaps {forest : Mem PriorityQueue} (heaps : ∀ i, Heap (forest i)) {op : Call}
    (proper : op.Proper) :
    ∃ after, call isEmpty forest op = some after ∧ ∀ i, Heap (after i) := by
  have put : ∀ {forest : Mem PriorityQueue} (i : Nat) {queue : PriorityQueue},
      (∀ j, Heap (forest j)) → Heap queue → ∀ j, Heap (store forest i queue j) := by
    intro forest i queue heaps heap j
    unfold store
    split
    · exact heap
    · exact heaps j
  cases op with
  | insert1 allocated x i =>
    obtain ⟨queue, ran, heap, _⟩ := insert1_merges allocated x (heaps i)
    exact ⟨_, by simp only [call, ran, Option.map_some], put i heaps heap⟩
  | merge i j =>
    obtain ⟨queue, ran, merged⟩ := merge_merges (heaps i) (heaps j)
    have apart : i ≠ j := proper
    exact ⟨_, by simp only [call, apart, if_false, ran, Option.map_some],
      put i (put j heaps heap_null) merged.heap⟩
  | deleteMin i =>
    obtain ⟨queue, ran, heap⟩ := delete_min_heap tells (heaps i)
    exact ⟨_, by simp only [call, ran, Option.map_some], put i heaps heap⟩

theorem history_heaps (history : List Call) (proper : ∀ op ∈ history, op.Proper)
    {forest : Mem PriorityQueue} (heaps : ∀ i, Heap (forest i)) :
    ∃ after, play (call isEmpty) history forest = some after ∧ ∀ i, Heap (after i) := by
  induction history generalizing forest with
  | nil => exact ⟨forest, rfl, heaps⟩
  | cons op history ih =>
    obtain ⟨next, ran, still⟩ := call_heaps tells heaps (proper op (by simp))
    obtain ⟨after, rest, last⟩ := ih (fun other inside => proper other (by simp [inside])) still
    exact ⟨after, (play_cons ran).trans rest, last⟩

end Calls

/-- Every sequence of calls ends with a forest of leftist heaps, in which merge ends with the
    elements of both heaps and deleteMin takes a smallest element away. -/
theorem forest_is_leftist (isEmpty : PriorityQueue → Bool)
    (tells : ∀ queue, isEmpty queue = true ↔ queue = NULL) (history : List Call)
    (proper : ∀ op ∈ history, op.Proper) :
    ∃ forest, play (call isEmpty) history (fun _ => NULL) = some forest ∧
      (∀ i, Ordered (forest i) ∧ Leftist (forest i)) ∧
      (∀ i j, i ≠ j → ∃ queue, merge (forest i) (forest j) = some queue ∧
        elements queue = elements (forest i) + elements (forest j)) ∧
      ∀ i, forest i ≠ NULL → ∃ least queue, deleteMin isEmpty (forest i) = some queue ∧
        elements (forest i) = least ::ₘ elements queue ∧
        ∀ x ∈ elements (forest i), least ≤ x := by
  obtain ⟨forest, played, heaps⟩ :=
    @history_heaps isEmpty tells history proper (fun _ => NULL) (fun _ => heap_null)
  refine ⟨forest, played, fun i => ⟨(heaps i).ordered, (heaps i).leftist⟩, ?_, ?_⟩
  · intro i j _
    obtain ⟨queue, ran, merged⟩ := merge_merges (heaps i) (heaps j)
    exact ⟨queue, ran, merged.elements⟩
  · intro i present
    obtain ⟨least, queue, ran, _, removed, low⟩ := delete_min_removes tells (heaps i) present
    exact ⟨least, queue, ran, removed, low⟩

/-- isEmpty as a comparison with NULL. -/
theorem two_heaps_are_leftist :
    ∃ forest, play (call fun queue => queue = NULL)
        [.insert1 true 3 0, .insert1 true 1 0, .insert1 true 2 1, .merge 0 1, .deleteMin 0]
        (fun _ => NULL) = some forest ∧ Ordered (forest 0) ∧ Leftist (forest 0) := by
  obtain ⟨forest, played, heaps, _⟩ :=
    forest_is_leftist (fun queue => queue = NULL) (by simp) [.insert1 true 3 0,
      .insert1 true 1 0, .insert1 true 2 1, .merge 0 1, .deleteMin 0] (by simp [Call.Proper])
  exact ⟨forest, played, heaps 0⟩

end UC.LeftHeap
