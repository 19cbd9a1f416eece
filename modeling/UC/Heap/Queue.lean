import Mathlib.Data.Int.Order.Basic
import UC.Heap.Model

/- The priority queue works up to 2^30 + 1 elements of capacity. Beyond that deleteMin can
   sift down to index 2^30, whose double is no int. -/
namespace UC.PriorityQueue
open UC.Memory UC.HeapOrder

theorem int_fits {n : Nat} (fits : n ≤ INT_MAX) : int n = some n := if_pos fits

theorem int_overflows {n : Nat} (large : INT_MAX < n) : int n = none := if_neg (by omega)

theorem load_inside {capacity i : Nat} (m : Mem Int) (inside : i ≤ capacity) :
    load capacity m i = some (m i) := if_pos (by omega)

theorem save_inside {capacity i : Nat} (m : Mem Int) (x : Int) (inside : i ≤ capacity) :
    save capacity m i x = some (store m i x) := if_pos (by omega)

theorem sift_up_stops {capacity i : Nat} {x : Int} {m : Mem Int} (inside : i ≤ capacity)
    (stop : 0 < i → m (parent i) ≤ x) : siftUp capacity x m i = some (store m i x) := by
  have up : (i - 1) / 2 ≤ capacity := by omega
  have blocked : ¬ (x < m ((i - 1) / 2) ∧ 0 < i) := by
    rintro ⟨less, pos⟩
    exact absurd (stop pos) (not_le.mpr less)
  rw [siftUp, load_inside m up]
  simp only [Option.bind_eq_bind, Option.bind_some, blocked, ↓reduceDIte]
  exact save_inside m x inside

theorem sift_up_moves {capacity i : Nat} {x : Int} {m : Mem Int} (inside : i ≤ capacity)
    (pos : 0 < i) (less : x < m (parent i)) :
    siftUp capacity x m i = siftUp capacity x (store m i (m (parent i))) (parent i) := by
  have up : parent i ≤ capacity := (parent_lt pos).le.trans inside
  rw [siftUp]
  change (load capacity m (parent i)).bind _ = _
  rw [load_inside m up, Option.bind_some, dif_pos ⟨less, pos⟩, save_inside m _ inside]
  rfl

/-- What both sifts end with: the hole is filled and the rest stays what it was. -/
def Sifted (m : Mem Int) (n i : Nat) (x : Int) (result : Option (Mem Int)) : Prop :=
  ∃ m', result = some m' ∧ Ordered m' n ∧ bag m' n = bag (store m i x) n

theorem sift_up_spec (capacity : Nat) (x : Int) {n i : Nat} {m : Mem Int} (hole : Hole m n i)
    (room : n ≤ capacity) (below : ∀ j, 0 < j → j < n → parent j = i → x ≤ m j) :
    Sifted m n i x (siftUp capacity x m i) := by
  induction i using Nat.strongRecOn generalizing m with
  | ind i ih =>
    have inside := hole.inside
    by_cases move : 0 < i ∧ x < m (parent i)
    · obtain ⟨pos, less⟩ := move
      have up := parent_lt pos
      have children : ∀ j, 0 < j → j < n → parent j = parent i →
          x ≤ store m i (m (parent i)) j := by
        intro j jpos jin sibling
        by_cases same : j = i
        · rw [same, store_same]
          exact less.le
        · rw [store_other _ _ same]
          have beside := hole.others j jpos jin same (by omega)
          rw [sibling] at beside
          exact less.le.trans beside
      obtain ⟨m', run, ordered, same⟩ := ih (parent i) up (hole_moves_up hole pos) children
      refine ⟨m', ?_, ordered, ?_⟩
      · rw [sift_up_moves (by omega) pos less, run]
      · rw [same, bag_move m inside (by omega)]
    · have stop : 0 < i → m (parent i) ≤ x := by
        intro pos
        by_contra more
        exact move ⟨pos, not_le.mp more⟩
      exact ⟨_, sift_up_stops (by omega) stop, fill_hole hole stop below, rfl⟩

/-- A child that sifting down moves to: the least of the children. -/
structure LeastChild (m : Mem Int) (n i c : Nat) : Prop where
  positive : 0 < c
  inside : c < n
  child : parent c = i
  least : ∀ j, 0 < j → j < n → parent j = i → m c ≤ m j

/-- The slot behind the last one still holds lastElement, so that reading it as a right
    child never moves it. -/
theorem smaller_child_choice {queue : Heap} {m : Mem Int} {i : Nat} {last : Int}
    (room : queue.size ≤ queue.capacity) (vacated : m queue.size = last)
    (inner : i * 2 < queue.size) :
    ∃ right, rightSmaller queue m (i * 2 + 1) = some right ∧
      ∃ child, (if right then i * 2 + 2 else i * 2 + 1) = child ∧ child ≤ queue.size ∧
        if m child < last then LeastChild m queue.size i child
        else ∀ j, 0 < j → j < queue.size → parent j = i → last ≤ m j := by
  by_cases none : i * 2 + 1 = queue.size
  · refine ⟨false, if_pos none, _, rfl, none.le, ?_⟩
    rw [if_neg Bool.false_ne_true, none, vacated, if_neg (lt_irrefl last)]
    intro j pos inside child
    rcases child_cases pos child with left | right <;> omega
  · refine ⟨decide (m (i * 2 + 2) < m (i * 2 + 1)), ?_, _, rfl, ?_, ?_⟩
    · rw [rightSmaller, if_neg none, load_inside m (by omega), load_inside m (by omega)]
      rfl
    · split <;> omega
    · by_cases right : m (i * 2 + 2) < m (i * 2 + 1)
      · rw [if_pos (decide_eq_true right)]
        split
        next move =>
          -- the slot behind the last one holds lastElement and is not moved
          have inside : i * 2 + 2 ≠ queue.size := by
            intro phantom
            rw [phantom, vacated] at move
            exact lt_irrefl last move
          refine ⟨by omega, by omega, parent_right i, ?_⟩
          intro j pos _ child
          rcases child_cases pos child with atLeft | atRight
          · rw [atLeft]
            exact right.le
          · rw [atRight]
        next stay =>
          intro j pos _ child
          rcases child_cases pos child with atLeft | atRight
          · rw [atLeft]
            exact (not_lt.mp stay).trans right.le
          · rw [atRight]
            exact not_lt.mp stay
      · rw [decide_eq_false right, if_neg Bool.false_ne_true]
        split
        next move =>
          refine ⟨by omega, by omega, parent_left i, ?_⟩
          intro j pos _ child
          rcases child_cases pos child with atLeft | atRight
          · rw [atLeft]
          · rw [atRight]
            exact not_lt.mp right
        next stay =>
          intro j pos _ child
          rcases child_cases pos child with atLeft | atRight
          · rw [atLeft]
            exact not_lt.mp stay
          · rw [atRight]
            exact (not_lt.mp stay).trans (not_lt.mp right)

theorem sift_down_leaf {queue : Heap} {m : Mem Int} {i : Nat} {last : Int}
    (inside : i ≤ queue.capacity) (small : i * 2 ≤ INT_MAX) (leaf : queue.size ≤ i * 2) :
    siftDown queue last m i = some (store m i last) := by
  rw [siftDown, int_fits small]
  simp only [Option.bind_eq_bind, Option.bind_some, not_lt.mpr leaf, ↓reduceDIte]
  exact save_inside m last inside

theorem sift_down_inner {queue : Heap} {m : Mem Int} {i child : Nat} {last : Int} {right : Bool}
    (inside : i ≤ queue.capacity) (small : i * 2 ≤ INT_MAX) (inner : i * 2 < queue.size)
    (chosen : rightSmaller queue m (i * 2 + 1) = some right)
    (at_child : (if right then i * 2 + 2 else i * 2 + 1) = child)
    (reach : child ≤ queue.capacity) :
    siftDown queue last m i =
      if m child < last then siftDown queue last (store m i (m child)) child
      else some (store m i last) := by
  rw [siftDown, int_fits small]
  simp only [Option.bind_eq_bind, Option.bind_some, inner, ↓reduceDIte, chosen, at_child,
    load_inside m reach, save_inside m _ inside, gt_iff_lt]

theorem sift_down_spec {queue : Heap} {last : Int} (room : queue.size ≤ queue.capacity)
    (small : queue.size ≤ 2 ^ 30) {i : Nat} {m : Mem Int} (hole : Hole m queue.size i)
    (vacated : m queue.size = last) (above : 0 < i → m (parent i) ≤ last) :
    Sifted m queue.size i last (siftDown queue last m i) := by
  induction rest : queue.size - i using Nat.strongRecOn generalizing i m with
  | ind k ih =>
    have inside := hole.inside
    have fits : i * 2 ≤ INT_MAX := by
      unfold INT_MAX
      omega
    by_cases inner : i * 2 < queue.size
    · obtain ⟨right, chosen, child, at_child, reach, outcome⟩ :=
        smaller_child_choice room vacated inner
      rw [sift_down_inner (by omega) fits inner chosen at_child (by omega)]
      split
      next move =>
        rw [if_pos move] at outcome
        have down : i < child := by
          have edge := outcome.child
          have lower := parent_lt outcome.positive
          omega
        have next := hole_moves_down hole outcome.positive outcome.inside outcome.child
          outcome.least
        have still : store m i (m child) queue.size = last := by
          rw [store_other _ _ (by omega), vacated]
        have higher : 0 < child → store m i (m child) (parent child) ≤ last := by
          intro _
          rw [outcome.child, store_same]
          exact move.le
        have shorter : queue.size - child < k := by omega
        obtain ⟨m', run, ordered, same⟩ := ih _ shorter next still higher rfl
        exact ⟨m', run, ordered, by rw [same, bag_move m inside outcome.inside]⟩
      next stay =>
        rw [if_neg stay] at outcome
        exact ⟨_, rfl, fill_hole hole above outcome, rfl⟩
    · rw [sift_down_leaf (by omega) fits (by omega)]
      refine ⟨_, rfl, fill_hole hole above ?_, rfl⟩
      intro j pos below child
      rcases child_cases pos child with left | right <;> omega

/-- What holds of a queue between two calls. -/
structure Valid (max : Nat) (queue : Heap) : Prop where
  capacity : queue.capacity = max
  within : queue.size ≤ max
  ordered : Ordered queue.elements queue.size

theorem valid_start {max : Nat} (memory : Mem Int) (fits : max + 1 ≤ INT_MAX) :
    ∃ queue, init max memory = some queue ∧ Valid max queue := by
  refine ⟨{ capacity := max, elements := memory, size := 0 }, ?_, rfl, Nat.zero_le _, ?_⟩
  · rw [init, int_fits fits]
    rfl
  · intro i _ inside
    exact absurd inside (Nat.not_lt_zero i)

theorem insert_room {max : Nat} {queue : Heap} (x : Int) (valid : Valid max queue)
    (fits : max ≤ INT_MAX) (room : isFull queue = false) :
    ∃ queue', insert x queue = some queue' ∧ Valid max queue' ∧
      stored queue' = x ::ₘ stored queue := by
  have ne : queue.size ≠ queue.capacity := by simpa [isFull] using room
  have within := valid.within
  have capacity := valid.capacity
  have hole : Hole queue.elements (queue.size + 1) queue.size := by
    constructor
    · omega
    · intro j pos inside other _
      exact valid.ordered j pos (by omega)
    · intro _ j pos inside child
      have below := parent_lt pos
      omega
  have none_below : ∀ j, 0 < j → j < queue.size + 1 → parent j = queue.size →
      x ≤ queue.elements j := by
    intro j pos inside child
    have below := parent_lt pos
    omega
  obtain ⟨elements, run, ordered, content⟩ :=
    sift_up_spec queue.capacity x hole (by omega) none_below
  refine ⟨{ queue with size := queue.size + 1, elements := elements }, ?_, ?_, ?_⟩
  · simp [insert, room, int_fits (show queue.size + 1 ≤ INT_MAX by omega), run]
  · exact ⟨capacity, by change queue.size + 1 ≤ max; omega, ordered⟩
  · have rest : bag (store queue.elements queue.size x) queue.size = stored queue :=
      bag_congr fun i hi => store_other _ _ (by omega)
    change bag elements (queue.size + 1) = _
    rw [content, bag_succ, store_same, rest]

theorem insert_full {queue : Heap} (x : Int) (full : isFull queue = true) :
    insert x queue = some queue := by
  simp [insert, full]

theorem delete_min_empty {queue : Heap} (empty : isEmpty queue = true) :
    deleteMin queue = some (0, queue) := by
  simp [deleteMin, empty]

theorem delete_min_run {queue : Heap} {n : Nat} (size : queue.size = n + 1)
    (within : queue.size ≤ queue.capacity) :
    deleteMin queue =
      (siftDown { queue with size := n } (queue.elements n) queue.elements 0).bind fun elements =>
        some (queue.elements 0, { queue with size := n, elements := elements }) := by
  have some_left : isEmpty queue = false := by simp [isEmpty, size]
  have less : queue.size - 1 = n := by omega
  simp [deleteMin, some_left, less, load_inside queue.elements (Nat.zero_le _),
    load_inside queue.elements (show n ≤ queue.capacity by omega)]

theorem sift_from_root {queue : Heap} {n : Nat} (size : queue.size = n + 1)
    (within : queue.size ≤ queue.capacity) (small : n ≤ 2 ^ 30)
    (ordered : Ordered queue.elements queue.size) :
    ∃ elements, siftDown { queue with size := n } (queue.elements n) queue.elements 0 =
      some elements ∧ Ordered elements n ∧
      queue.elements 0 ::ₘ bag elements n = bag queue.elements (n + 1) := by
  rcases Nat.eq_zero_or_pos n with none | more
  · subst none
    refine ⟨_, sift_down_leaf (Nat.zero_le _) (Nat.zero_le _) (Nat.zero_le _), ?_, rfl⟩
    intro i _ inside
    exact absurd inside (Nat.not_lt_zero i)
  · have hole : Hole queue.elements n 0 := by
      constructor
      · exact more
      · intro j pos inside _ _
        exact ordered j pos (by omega)
      · intro absurd
        exact False.elim (lt_irrefl 0 absurd)
    have room : n ≤ queue.capacity := by omega
    obtain ⟨elements, run, kept, content⟩ :=
      @sift_down_spec { queue with size := n } (queue.elements n) room small 0 queue.elements
        hole rfl (fun pos => absurd pos (lt_irrefl 0))
    refine ⟨elements, run, kept, ?_⟩
    rw [content, bag_store _ more, bag_succ]

theorem delete_min_some {max : Nat} {queue : Heap} (valid : Valid max queue)
    (small : queue.size ≤ 2 ^ 30 + 1) (some_left : isEmpty queue = false) :
    ∃ least queue', deleteMin queue = some (least, queue') ∧ Valid max queue' ∧
      least ∈ stored queue ∧ (∀ y ∈ stored queue, least ≤ y) ∧
      stored queue' = (stored queue).erase least := by
  have within := valid.within
  have capacity := valid.capacity
  obtain ⟨n, size⟩ : ∃ n, queue.size = n + 1 := by
    refine Nat.exists_eq_succ_of_ne_zero ?_
    simpa [isEmpty] using some_left
  obtain ⟨elements, run, ordered, content⟩ :=
    sift_from_root size (by omega) (by omega) valid.ordered
  refine ⟨queue.elements 0, { queue with size := n, elements := elements }, ?_, ?_, ?_, ?_, ?_⟩
  · rw [delete_min_run size (by omega), run]
    rfl
  · exact ⟨capacity, by change n ≤ max; omega, ordered⟩
  · exact mem_bag.mpr ⟨0, by omega, rfl⟩
  · intro y member
    obtain ⟨i, inside, value⟩ := mem_bag.mp member
    rw [← value]
    exact root_least valid.ordered inside
  · change bag elements n = (bag queue.elements queue.size).erase _
    rw [size, ← content, Multiset.erase_cons_head]

/-- What the calls on a queue do, and the order of its elements. -/
structure Correct (queue : Heap) : Prop where
  ordered : ∀ i, 0 < i → i < queue.size → queue.elements ((i - 1) / 2) ≤ queue.elements i
  delete_min : isEmpty queue = false → ∃ least queue', deleteMin queue = some (least, queue') ∧
    least ∈ stored queue ∧ (∀ y ∈ stored queue, least ≤ y) ∧
    stored queue' = (stored queue).erase least
  insert_one : ∀ x, isFull queue = false →
    ∃ queue', insert x queue = some queue' ∧ stored queue' = x ::ₘ stored queue
  insert_full : ∀ x, isFull queue = true → insert x queue = some queue
  delete_empty : isEmpty queue = true → deleteMin queue = some (0, queue)

theorem valid_is_correct {max : Nat} {queue : Heap} (fits : max ≤ INT_MAX)
    (small : queue.size ≤ 2 ^ 30 + 1) (valid : Valid max queue) : Correct queue := by
  constructor
  · exact valid.ordered
  · intro some_left
    obtain ⟨least, queue', run, _, spec⟩ := delete_min_some valid small some_left
    exact ⟨least, queue', run, spec⟩
  · intro x room
    obtain ⟨queue', run, _, content⟩ := insert_room x valid fits room
    exact ⟨queue', run, content⟩
  · exact fun x => insert_full x
  · exact delete_min_empty

/-- A deleteMin that does not come to an index from 2^30 on. -/
def Small (queue : Heap) : Op → Prop
  | .insert _ => True
  | .deleteMin => queue.size ≤ 2 ^ 30 + 1

def SmallRun : List Op → Heap → Prop
  | [], _ => True
  | op :: ops, queue => Small queue op ∧ ∀ queue', exec op queue = some queue' → SmallRun ops queue'

theorem exec_keeps_valid {max : Nat} {queue : Heap} (op : Op) (fits : max ≤ INT_MAX)
    (small : Small queue op) (valid : Valid max queue) :
    ∃ queue', exec op queue = some queue' ∧ Valid max queue' := by
  cases op with
  | insert x =>
    cases full : isFull queue with
    | true => exact ⟨queue, insert_full x full, valid⟩
    | false =>
      obtain ⟨queue', run, kept, _⟩ := insert_room x valid fits full
      exact ⟨queue', run, kept⟩
  | deleteMin =>
    cases empty : isEmpty queue with
    | true => exact ⟨queue, by rw [exec, delete_min_empty empty]; rfl, valid⟩
    | false =>
      obtain ⟨least, queue', run, kept, _⟩ := delete_min_some valid small empty
      exact ⟨queue', by rw [exec, run]; rfl, kept⟩

/-- Also in a queue of any capacity: every such run keeps the order and stays inside. -/
theorem exec_all_keeps_valid {max : Nat} (fits : max ≤ INT_MAX) (ops : List Op)
    {queue : Heap} (small : SmallRun ops queue) (valid : Valid max queue) :
    ∃ queue', execAll ops queue = some queue' ∧ Valid max queue' := by
  induction ops generalizing queue with
  | nil => exact ⟨queue, rfl, valid⟩
  | cons op ops ih =>
    obtain ⟨queue', run, kept⟩ := exec_keeps_valid op fits small.1 valid
    obtain ⟨queue'', rest, final⟩ := ih (small.2 queue' run) kept
    refine ⟨queue'', ?_, final⟩
    rw [execAll, run]
    exact rest

theorem small_run {max : Nat} (small : max ≤ 2 ^ 30 + 1) (ops : List Op) {queue : Heap}
    (valid : Valid max queue) : SmallRun ops queue := by
  induction ops generalizing queue with
  | nil => trivial
  | cons op ops ih =>
    have small_op : Small queue op := by
      cases op with
      | insert x => trivial
      | deleteMin => exact Nat.le_trans valid.within small
    refine ⟨small_op, ?_⟩
    intro queue' run
    obtain ⟨next, run', kept⟩ := exec_keeps_valid op (by unfold INT_MAX; omega) small_op valid
    cases Option.some.inj (run.symm.trans run')
    exact ih kept

theorem exec_all_append (ops later : List Op) (queue : Heap) :
    execAll (ops ++ later) queue = (execAll ops queue).bind (execAll later) := by
  induction ops generalizing queue with
  | nil => rfl
  | cons op ops ih =>
    rw [List.cons_append, execAll, execAll, Option.bind_assoc]
    congr 1
    funext next
    exact ih next

end UC.PriorityQueue
