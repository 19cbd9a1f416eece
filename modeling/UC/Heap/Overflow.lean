import UC.Heap.Queue

/- From capacity 2^30 + 2 on a run of calls makes deleteMin double the index 2^30. -/
namespace UC.PriorityQueue
open UC.Memory UC.HeapOrder

/-- Insertions in heap order leave each element where it was appended. -/
theorem inserts_in_order {f : Nat → Int} {max : Nat} (fits : max ≤ INT_MAX) (n : Nat)
    (room : n ≤ max) (ordered : Ordered f n) {queue : Heap} (capacity : queue.capacity = max)
    (empty : queue.size = 0) :
    ∃ elements, execAll ((List.range n).map fun i => .insert (f i)) queue =
      some { queue with size := n, elements := elements } ∧ ∀ i < n, elements i = f i := by
  induction n with
  | zero =>
    refine ⟨queue.elements, ?_, fun i inside => absurd inside (Nat.not_lt_zero i)⟩
    have same : { queue with size := 0 } = queue := by rw [← empty]
    exact congrArg some same.symm
  | succ n ih =>
    obtain ⟨elements, run, same⟩ := ih (by omega) fun i pos inside => ordered i pos (by omega)
    have place : siftUp queue.capacity (f n) elements n = some (store elements n (f n)) := by
      apply sift_up_stops (by omega)
      intro pos
      rw [same _ (parent_lt pos)]
      exact ordered n pos (by omega)
    have notFull : isFull { queue with size := n, elements := elements } = false := by
      simp [isFull]
      omega
    refine ⟨store elements n (f n), ?_, ?_⟩
    · rw [List.range_succ, List.map_append, exec_all_append, run]
      simp [execAll, exec, insert, notFull, place, int_fits (show n + 1 ≤ INT_MAX by omega)]
    · intro i inside
      by_cases last : i = n
      · rw [last, store_same]
      · rw [store_other _ _ last]
        exact same i (by omega)

/-- The identity, but the two leftmost cells of level e + 1 are exchanged with each other:
    2^(e+1) - 1 and 2^(e+1). -/
def crossed (e i : Nat) : Nat :=
  if i + 1 = 2 ^ (e + 1) then i + 1 else if i = 2 ^ (e + 1) then i - 1 else i

theorem crossed_small {e i : Nat} (small : i + 1 < 2 ^ (e + 1)) : crossed e i = i := by
  simp only [crossed, small.ne, ↓reduceIte]
  exact if_neg (by omega)

theorem crossed_large {e i : Nat} (large : 2 ^ (e + 1) < i) : crossed e i = i := by
  simp only [crossed, large.ne', ↓reduceIte]
  exact if_neg (by omega)

theorem crossed_is_ordered {e : Nat} (deep : 1 ≤ e) :
    Ordered (fun i => (crossed e i : Int)) (2 ^ (e + 1) + 2) := by
  intro i pos inside
  have two : 2 ^ 1 ≤ 2 ^ e := Nat.pow_le_pow_right (by omega) deep
  have double : 2 ^ (e + 1) = 2 * 2 ^ e := by rw [Nat.pow_succ, Nat.mul_comm]
  have up : crossed e (parent i) = parent i := by
    apply crossed_small
    unfold parent
    omega
  have lower : parent i ≤ crossed e i := by
    unfold parent crossed
    split
    · omega
    · split <;> omega
  simp only [up]
  exact_mod_cast lower

/-- The queue from which deleteMin has taken the last of 2^(e+1) + 2 elements, while it
    sifts down along the left edge: below level k nothing has changed. -/
structure LeftEdge (e k : Nat) (queue : Heap) (m : Mem Int) : Prop where
  level : k ≤ e
  size : queue.size = 2 ^ (e + 1) + 1
  room : queue.size ≤ queue.capacity
  same : ∀ i, 2 ^ k ≤ i → i ≤ queue.size → m i = crossed e i

section LeftEdge

variable {e k : Nat} {queue : Heap} {m : Mem Int}

theorem edge_arithmetic (level : k ≤ e) :
    1 ≤ 2 ^ k ∧ 2 ^ (k + 1) = 2 * 2 ^ k ∧ 2 ^ (k + 1) ≤ 2 ^ (e + 1) :=
  ⟨Nat.one_le_two_pow, by rw [Nat.pow_succ, Nat.mul_comm],
    Nat.pow_le_pow_right (by omega) (by omega)⟩

theorem left_edge_last (edge : LeftEdge e k queue m) :
    (crossed e queue.size : Int) = queue.size := by
  rw [crossed_large (by rw [edge.size]; omega)]

theorem left_edge_reads (edge : LeftEdge e k queue m) :
    rightSmaller queue m ((2 ^ k - 1) * 2 + 1) =
      some (decide (crossed e (2 ^ (k + 1)) < crossed e (2 ^ (k + 1) - 1))) := by
  obtain ⟨one, double, below⟩ := edge_arithmetic edge.level
  have size := edge.size
  have room := edge.room
  have left : (2 ^ k - 1) * 2 + 1 = 2 ^ (k + 1) - 1 := by omega
  have right : 2 ^ (k + 1) - 1 + 1 = 2 ^ (k + 1) := by omega
  rw [rightSmaller, left, if_neg (by omega), load_inside m (by omega),
    load_inside m (by omega), right, edge.same _ (by omega) (by omega),
    edge.same _ (by omega) (by omega)]
  simp

theorem left_edge_goes_down (edge : LeftEdge e k queue m) (level : k < e)
    (fits : 2 ^ (e + 1) ≤ INT_MAX) :
    ∃ m', LeftEdge e (k + 1) queue m' ∧
      siftDown queue (crossed e queue.size) m (2 ^ k - 1) =
        siftDown queue (crossed e queue.size) m' (2 ^ (k + 1) - 1) := by
  obtain ⟨one, double, below⟩ := edge_arithmetic edge.level
  obtain ⟨_, doubleNext, lower⟩ := edge_arithmetic level
  have size := edge.size
  have room := edge.room
  have left : (2 ^ k - 1) * 2 + 1 = 2 ^ (k + 1) - 1 := by omega
  have atLeft : crossed e (2 ^ (k + 1) - 1) = 2 ^ (k + 1) - 1 := crossed_small (by omega)
  have atRight : crossed e (2 ^ (k + 1)) = 2 ^ (k + 1) := crossed_small (by omega)
  have reads := left_edge_reads edge
  rw [atLeft, atRight, decide_eq_false (by omega)] at reads
  have value : m (2 ^ (k + 1) - 1) < (crossed e queue.size : Int) := by
    rw [edge.same _ (by omega) (by omega), left_edge_last edge, atLeft]
    omega
  refine ⟨store m (2 ^ k - 1) (m (2 ^ (k + 1) - 1)), ⟨level, size, room, ?_⟩, ?_⟩
  · intro i later inside
    rw [store_other _ _ (by omega)]
    exact edge.same i (by omega) inside
  · rw [sift_down_inner (by omega) (by omega) (by omega) reads left (by omega), if_pos value]

/-- At level e the right child is the smaller one, and its index has no double. -/
theorem left_edge_ends (edge : LeftEdge e e queue m) (fits : 2 ^ (e + 1) ≤ INT_MAX)
    (large : INT_MAX < 2 ^ (e + 2)) :
    siftDown queue (crossed e queue.size) m (2 ^ e - 1) = none := by
  obtain ⟨one, double, _⟩ := edge_arithmetic (le_refl e)
  have doubleTop : 2 ^ (e + 2) = 2 * 2 ^ (e + 1) := by
    rw [Nat.pow_succ 2 (e + 1), Nat.mul_comm]
  have size := edge.size
  have room := edge.room
  have right : (2 ^ e - 1) * 2 + 2 = 2 ^ (e + 1) := by omega
  have atLeft : crossed e (2 ^ (e + 1) - 1) = 2 ^ (e + 1) := by
    rw [crossed, if_pos (by omega)]
    omega
  have atRight : crossed e (2 ^ (e + 1)) = 2 ^ (e + 1) - 1 := by
    rw [crossed, if_neg (by omega), if_pos rfl]
  have reads := left_edge_reads edge
  rw [atLeft, atRight, decide_eq_true (by omega)] at reads
  have value : m (2 ^ (e + 1)) < (crossed e queue.size : Int) := by
    rw [edge.same _ (by omega) (by omega), left_edge_last edge, atRight]
    omega
  rw [sift_down_inner (by omega) (by omega) (by omega) reads right (by omega), if_pos value,
    siftDown, int_overflows (by omega)]
  rfl

theorem left_edge_overflows (fits : 2 ^ (e + 1) ≤ INT_MAX) (large : INT_MAX < 2 ^ (e + 2))
    (d : Nat) (depth : k + d = e) (edge : LeftEdge e k queue m) :
    siftDown queue (crossed e queue.size) m (2 ^ k - 1) = none := by
  induction d generalizing k m with
  | zero =>
    have here : k = e := depth
    subst here
    exact left_edge_ends edge fits large
  | succ d ih =>
    obtain ⟨m', next, run⟩ := left_edge_goes_down edge (by omega) fits
    rw [run]
    exact ih (by omega) next

theorem delete_min_overflows (fits : 2 ^ (e + 1) ≤ INT_MAX) (large : INT_MAX < 2 ^ (e + 2))
    (size : queue.size = 2 ^ (e + 1) + 1 + 1) (room : queue.size ≤ queue.capacity)
    (same : ∀ i < queue.size, queue.elements i = crossed e i) : deleteMin queue = none := by
  have shorter : 2 ^ (e + 1) + 1 ≤ queue.capacity := by omega
  have edge : LeftEdge e 0 { queue with size := 2 ^ (e + 1) + 1 } queue.elements := by
    refine ⟨Nat.zero_le e, rfl, shorter, ?_⟩
    intro i _ inside
    exact same i (by rw [size]; exact Nat.lt_succ_of_le inside)
  have ends := left_edge_overflows fits large e (by omega) edge
  rw [delete_min_run size room, same _ (by omega)]
  change (siftDown _ _ _ (2 ^ 0 - 1)).bind _ = none
  rw [ends]
  rfl

end LeftEdge

def overflowingCalls (e : Nat) : List Op :=
  ((List.range (2 ^ (e + 1) + 2)).map fun i => .insert (crossed e i)) ++ [.deleteMin]

theorem calls_overflow {e max : Nat} (deep : 1 ≤ e) (fits : 2 ^ (e + 1) ≤ INT_MAX)
    (large : INT_MAX < 2 ^ (e + 2)) (int_max : max ≤ INT_MAX) (room : 2 ^ (e + 1) + 2 ≤ max)
    (memory : Mem Int) : (init max memory).bind (execAll (overflowingCalls e)) = none := by
  by_cases top : max + 1 ≤ INT_MAX
  · have start : init max memory = some { capacity := max, elements := memory, size := 0 } := by
      rw [init, int_fits top]
      rfl
    obtain ⟨elements, run, same⟩ := @inserts_in_order _ _ int_max (2 ^ (e + 1) + 2) room
      (crossed_is_ordered deep) ⟨max, memory, 0⟩ rfl rfl
    have ends := @delete_min_overflows _ ⟨max, elements, 2 ^ (e + 1) + 2⟩ fits large rfl room same
    rw [start, Option.bind_some, overflowingCalls, exec_all_append, run, Option.bind_some,
      execAll, exec, ends]
    rfl
  · rw [init, int_overflows (by omega)]
    rfl

/-- Every call on every queue of this capacity does what it should, and reads and writes only
    allocated slots, just when no index reaches 2^30. -/
theorem queue_is_correct_iff_capacity {max : Nat} (positive : 1 ≤ max) (int : max ≤ INT_MAX) :
    (∀ memory ops, ∃ queue, (init max memory).bind (execAll ops) = some queue ∧ Correct queue) ↔
      max ≤ 2 ^ 30 + 1 := by
  constructor
  · intro always
    by_contra large
    obtain ⟨queue, run, _⟩ := always (fun _ => 0) (overflowingCalls 29)
    have fails := @calls_overflow 29 max (by omega) (by unfold INT_MAX; omega)
      (by unfold INT_MAX; omega) int (by omega) (fun _ => 0)
    rw [fails] at run
    cases run
  · intro small memory ops
    obtain ⟨queue, start, valid⟩ := @valid_start max memory (by unfold INT_MAX; omega)
    have fits : max ≤ INT_MAX := int
    obtain ⟨queue', run, kept⟩ := exec_all_keeps_valid fits ops (small_run small ops valid) valid
    refine ⟨queue', ?_, valid_is_correct fits (Nat.le_trans kept.within small) kept⟩
    rw [start]
    exact run

theorem three_hundred_elements : 300 ≤ 2 ^ 30 + 1 ∧ ∃ queue,
    (init 300 fun _ => 0).bind (execAll [.insert 5, .insert 3, .deleteMin]) = some queue ∧
      Correct queue :=
  ⟨by decide, (queue_is_correct_iff_capacity (by decide) (by decide)).mpr (by decide) _ _⟩

theorem four_gigabyte_queue_overflows : ¬ ∃ queue,
    (init (2 ^ 30 + 2) fun _ => 0).bind (execAll (overflowingCalls 29)) = some queue ∧
      Correct queue := by
  have fails := @calls_overflow 29 (2 ^ 30 + 2) (by omega) (by unfold INT_MAX; omega)
    (by unfold INT_MAX; omega) (by unfold INT_MAX; omega) (by omega) (fun _ => 0)
  rintro ⟨queue, run, _⟩
  rw [fails] at run
  cases run

end UC.PriorityQueue
