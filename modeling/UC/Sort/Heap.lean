import Mathlib.Order.RelClasses
import UC.Lib.HeapOrder

/- The heapsort of example_sort.cpp, which example_heapsort.cpp repeats word for word. Indices
   are unbounded; one outside the array is none. -/
namespace UC.Heapsort
open UC.Memory UC.HeapOrder

def load (length : Nat) (arr : Mem Int) (i : Nat) : Option Int :=
  if i < length then some (arr i) else none

def save (length : Nat) (arr : Mem Int) (i : Nat) (v : Int) : Option (Mem Int) :=
  if i < length then some (store arr i v) else none

def swap (length : Nat) (arr : Mem Int) (a b : Nat) : Option (Mem Int) := do
  let tmp ← load length arr a
  let other ← load length arr b
  let arr ← save length arr a other
  save length arr b tmp

def larger (length : Nat) (arr : Mem Int) (size child maxpos : Nat) : Option Nat :=
  if child < size then do
    let candidate ← load length arr child
    let current ← load length arr maxpos
    some (if candidate > current then child else maxpos)
  else some maxpos

/-- The fuel bounds the depth of the recursion. -/
def maxheapify (length : Nat) : Nat → Mem Int → Nat → Nat → Option (Mem Int)
  | 0, _, _, _ => none
  | fuel + 1, arr, size, pos => do
    let left := 2 * pos + 1
    let right := 2 * pos + 2
    let maxpos ← larger length arr size left pos
    let maxpos ← larger length arr size right maxpos
    if maxpos ≠ pos then do
      let arr ← swap length arr maxpos pos
      maxheapify length fuel arr size maxpos
    else some arr

/-- The rounds i - 1, .., 0 of the loop of buildheap. -/
def buildLoop (length fuel size : Nat) : Nat → Mem Int → Option (Mem Int)
  | 0, arr => some arr
  | i + 1, arr => do
    let arr ← maxheapify length fuel arr size i
    buildLoop length fuel size i arr

def buildheap (length fuel : Nat) (arr : Mem Int) (size : Nat) : Option (Mem Int) :=
  buildLoop length fuel size (size / 2) arr

/-- The rounds i, .., 1 of the loop of heapsort. -/
def sortLoop (length fuel : Nat) : Nat → Nat → Mem Int → Option (Mem Int)
  | 0, _, arr => some arr
  | i + 1, heapsize, arr => do
    let arr ← swap length arr 0 (i + 1)
    let heapsize := heapsize - 1
    let arr ← maxheapify length fuel arr heapsize 0
    sortLoop length fuel i heapsize arr

def heapsort (length fuel : Nat) (arr : Mem Int) (size : Nat) : Option (Mem Int) := do
  let arr ← buildheap length fuel arr size
  sortLoop length fuel (size - 1) size arr

variable {length size pos k : Nat} {arr : Mem Int}

theorem load_within {i : Nat} (inside : i < length) : load length arr i = some (arr i) :=
  if_pos inside

def swapped (arr : Mem Int) (a b : Nat) : Mem Int := store (store arr a (arr b)) b (arr a)

theorem swap_within {a b : Nat} (one : a < length) (two : b < length) :
    swap length arr a b = some (swapped arr a b) := by
  simp only [swap, load_within one, load_within two, save, if_pos one, if_pos two,
    Option.bind_eq_bind, Option.bind_some, swapped]

theorem swapped_other {a b i : Nat} (one : i ≠ a) (two : i ≠ b) : swapped arr a b i = arr i := by
  rw [swapped, store_other _ _ two, store_other _ _ one]

theorem swapped_second (a b : Nat) : swapped arr a b b = arr a := store_same _ _ _

theorem swapped_first {a b : Nat} (ne : a ≠ b) : swapped arr a b a = arr b := by
  rw [swapped, store_other _ _ ne, store_same]

theorem swapped_bag {a b n : Nat} (one : a < n) (two : b < n) :
    bag (swapped arr a b) n = bag arr n := by
  rw [swapped, bag_move arr one two]
  apply bag_congr
  intro i _
  by_cases here : i = a
  · rw [here, store_same]
  · rw [store_other _ _ here]

theorem larger_picks {child maxpos : Nat} (inside : maxpos < size) :
    ∃ next, (∀ length ≥ size, larger length arr size child maxpos = some next) ∧
      (next = maxpos ∨ next = child ∧ child < size ∧ arr maxpos < arr next) ∧
      (child < size → arr child ≤ arr next) := by
  by_cases present : child < size
  · have step : ∀ length ≥ size, larger length arr size child maxpos =
        some (if arr child > arr maxpos then child else maxpos) := by
      intro length within
      rw [larger, if_pos present, load_within (by omega), load_within (by omega)]
      rfl
    refine ⟨_, step, ?_⟩
    by_cases greater : arr child > arr maxpos
    · rw [if_pos greater]
      exact ⟨.inr ⟨rfl, present, greater⟩, fun _ => le_refl _⟩
    · rw [if_neg greater]
      exact ⟨.inl rfl, fun _ => not_lt.mp greater⟩
  · refine ⟨maxpos, ?_, .inl rfl, fun inside => absurd inside present⟩
    intro length _
    rw [larger, if_neg present]

theorem larger_picks_greatest (inside : pos < size) :
    ∃ left maxpos, (∀ length ≥ size, larger length arr size (2 * pos + 1) pos = some left) ∧
      (∀ length ≥ size, larger length arr size (2 * pos + 2) left = some maxpos) ∧
      (maxpos ≠ pos → 0 < maxpos ∧ maxpos < size ∧ parent maxpos = pos ∧
        arr pos < arr maxpos) ∧
      ∀ j, 0 < j → j < size → parent j = pos → arr j ≤ arr maxpos := by
  obtain ⟨left, one, which, first⟩ := @larger_picks size arr (2 * pos + 1) pos inside
  have inside' : left < size := by omega
  obtain ⟨maxpos, two, which', second⟩ :=
    @larger_picks size arr (2 * pos + 2) left inside'
  have grows : arr left ≤ arr maxpos := by
    rcases which' with same | ⟨_, _, less⟩
    · rw [same]
    · exact le_of_lt less
  refine ⟨left, maxpos, one, two, ?_, ?_⟩
  · intro other
    rcases which' with same | ⟨same, present, less⟩
    · rw [same] at other ⊢
      rcases which with same' | ⟨same', present, less⟩
      · exact absurd same' other
      · refine ⟨by omega, inside', ?_, less⟩
        unfold parent
        omega
    · refine ⟨by omega, by omega, ?_, ?_⟩
      · unfold parent
        omega
      · rcases which with same' | ⟨_, _, less'⟩
        · rwa [← same']
        · exact less'.trans less
  · intro j positive present child
    rcases child_cases positive child with isLeft | isRight
    · have here : j = 2 * pos + 1 := by omega
      rw [here]
      exact (first (by omega)).trans grows
    · have here : j = 2 * pos + 2 := by omega
      rw [here]
      exact second (by omega)

theorem swapped_comm (a b : Nat) : swapped arr a b = swapped arr b a := by
  funext i
  by_cases first : i = a
  · by_cases same : a = b
    · rw [same]
    · rw [first, swapped_first same, swapped_second]
  · by_cases second : i = b
    · rw [second, swapped_second, swapped_first (by omega)]
    · rw [swapped_other first second, swapped_other second first]

/-- The same elements in front of size, in heap order from k on, and nothing else changed. -/
structure Heapified (arr : Mem Int) (k size : Nat) (result : Mem Int) : Prop where
  ordered : OrderedFrom (· ≥ ·) result k size
  kept : bag result size = bag arr size
  outside : ∀ i, size ≤ i → result i = arr i

theorem maxheapify_runs (hole : HoleFrom (· ≥ ·) arr k size pos)
    (above : 0 < pos → k ≤ parent pos → arr (parent pos) ≥ arr pos) :
    ∃ result, (∀ length ≥ size, ∀ fuel > size - pos,
        maxheapify length fuel arr size pos = some result) ∧
      Heapified arr k size result := by
  induction distance : size - pos using Nat.strongRecOn generalizing arr pos with
  | ind d ih =>
    obtain ⟨left, maxpos, one, two, moves, greatest⟩ :=
      @larger_picks_greatest size pos arr hole.inside
    by_cases stop : maxpos = pos
    · refine ⟨arr, ?_, ?_, rfl, fun _ _ => rfl⟩
      · intro length within fuel enough
        obtain ⟨fuel, rfl⟩ := Nat.exists_eq_succ_of_ne_zero (Nat.ne_zero_of_lt enough)
        rw [maxheapify, one length within, Option.bind_eq_bind, Option.bind_some,
          two length within, Option.bind_some, if_neg (not_not.mpr stop)]
      · rw [stop] at greatest
        exact fill_hole_from hole above greatest
    · obtain ⟨positive, inside, child, less⟩ := moves stop
      have down := parent_lt positive
      have moved : HoleFrom (· ≥ ·) (swapped arr maxpos pos) k size maxpos := by
        rw [swapped_comm]
        exact hole_from_store (hole_from_moves_down hole positive inside child greatest) _
      obtain ⟨result, run, heapified⟩ := ih (size - maxpos) (by omega) moved
        (by
          intro _ _
          rw [child, swapped_second, swapped_first stop]
          exact le_of_lt less) rfl
      refine ⟨result, ?_, heapified.ordered, ?_, ?_⟩
      · intro length within fuel enough
        obtain ⟨fuel, rfl⟩ := Nat.exists_eq_succ_of_ne_zero (Nat.ne_zero_of_lt enough)
        have inside' := hole.inside
        rw [maxheapify, one length within, Option.bind_eq_bind, Option.bind_some,
          two length within, Option.bind_some, if_pos stop, swap_within (by omega) (by omega)]
        exact run length within fuel (by omega)
      · rw [heapified.kept]
        exact swapped_bag inside hole.inside
      · intro i behind
        have inside' := hole.inside
        rw [heapified.outside i behind, swapped_other (by omega) (by omega)]

/-- Below the first inner node the order asks nothing. -/
theorem ordered_from_half (arr : Mem Int) (size : Nat) :
    OrderedFrom (· ≥ ·) arr (size / 2) size := by
  intro j _ inside bounded
  unfold parent at bounded
  omega

theorem hole_from_ordered (ordered : OrderedFrom (· ≥ ·) arr (k + 1) size) (inside : k < size) :
    HoleFrom (· ≥ ·) arr k size k := by
  constructor
  · exact inside
  · intro j positive present bounded _ apart
    exact ordered j positive present (by omega)
  · intro positive bounded
    have up := parent_lt positive
    omega

theorem build_loop_runs {rounds : Nat} (half : rounds ≤ size / 2)
    (ordered : OrderedFrom (· ≥ ·) arr rounds size) :
    ∃ result, (∀ length ≥ size, ∀ fuel > size,
        buildLoop length fuel size rounds arr = some result) ∧
      Heapified arr 0 size result := by
  induction rounds generalizing arr with
  | zero => exact ⟨arr, fun _ _ _ _ => rfl, ordered, rfl, fun _ _ => rfl⟩
  | succ i ih =>
    have hole := hole_from_ordered ordered (by omega)
    obtain ⟨next, run, heapified⟩ := maxheapify_runs hole
      (by
        intro positive bounded
        have up := parent_lt positive
        omega)
    obtain ⟨result, rest, final⟩ := ih (by omega) heapified.ordered
    refine ⟨result, ?_, final.ordered, final.kept.trans heapified.kept, ?_⟩
    · intro length within fuel enough
      rw [buildLoop, run length within fuel (by omega)]
      exact rest length within fuel enough
    · intro i behind
      rw [final.outside i behind, heapified.outside i behind]

theorem buildheap_runs (arr : Mem Int) (size : Nat) :
    ∃ result, (∀ length ≥ size, ∀ fuel > size,
        buildheap length fuel arr size = some result) ∧ Heapified arr 0 size result :=
  build_loop_runs (le_refl _) (ordered_from_half arr size)

/-- The loop of heapsort before round i: a heap up to i, and behind it, in order, elements that
    are at least those of the heap. -/
structure Selecting (start : Mem Int) (size : Nat) (now : Mem Int) (i : Nat) : Prop where
  inside : i < size
  heap : OrderedFrom (· ≥ ·) now 0 (i + 1)
  sorted : ∀ x y, i < x → x ≤ y → y < size → now x ≤ now y
  front : ∀ x y, x ≤ i → i < y → y < size → now x ≤ now y
  kept : bag now size = bag start size
  outside : ∀ j, size ≤ j → now j = start j

theorem hole_at_root {i : Nat} (heap : OrderedFrom (· ≥ ·) arr 0 (i + 2)) :
    HoleFrom (· ≥ ·) (swapped arr 0 (i + 1)) 0 (i + 1) 0 := by
  constructor
  · omega
  · intro j positive inside _ other apart
    have up := parent_lt positive
    rw [swapped_other other (by omega), swapped_other apart (by omega)]
    exact heap j positive (by omega) (Nat.zero_le _)
  · intro positive
    omega

/-- Behind the exchange the greatest element of the heap is behind the rest of it. -/
theorem exchanged_front {start : Mem Int} {i : Nat} (state : Selecting start size arr (i + 1))
    {x y : Nat} (low : x ≤ i) (behind : i < y) (high : y < size) :
    swapped arr 0 (i + 1) x ≤ swapped arr 0 (i + 1) y := by
  have greatest : ∀ z ≤ i + 1, arr z ≤ arr 0 := fun z le =>
    root_first state.heap (Nat.lt_succ_of_le le)
  have moved : ∃ z ≤ i + 1, swapped arr 0 (i + 1) x = arr z := by
    by_cases root : x = 0
    · rw [root, swapped_first (by omega)]
      exact ⟨i + 1, le_refl _, rfl⟩
    · rw [swapped_other root (by omega)]
      exact ⟨x, by omega, rfl⟩
  obtain ⟨z, le, same⟩ := moved
  rw [same]
  by_cases last : y = i + 1
  · rw [last, swapped_second]
    exact greatest z le
  · rw [swapped_other (by omega) last]
    exact state.front z y le (by omega) high

theorem exchanged_sorted {start : Mem Int} {i : Nat} (state : Selecting start size arr (i + 1))
    {x y : Nat} (low : i < x) (le : x ≤ y) (high : y < size) :
    swapped arr 0 (i + 1) x ≤ swapped arr 0 (i + 1) y := by
  by_cases both : y = i + 1
  · have same : x = y := by omega
    rw [same]
  · rw [@swapped_other _ 0 (i + 1) y (by omega) both]
    by_cases first : x = i + 1
    · rw [first, swapped_second]
      exact state.front 0 y (by omega) (by omega) high
    · rw [swapped_other (by omega) first]
      exact state.sorted x y (by omega) le high

theorem selecting_round {start next : Mem Int} {i : Nat}
    (state : Selecting start size arr (i + 1))
    (heapified : Heapified (swapped arr 0 (i + 1)) 0 (i + 1) next) :
    Selecting start size next i := by
  have inside := state.inside
  constructor
  · omega
  · exact heapified.ordered
  · intro x y low le high
    rw [heapified.outside x low, heapified.outside y (by omega)]
    exact exchanged_sorted state low le high
  · intro x y low behind high
    have mem : next x ∈ bag next (i + 1) := mem_bag.mpr ⟨x, by omega, rfl⟩
    rw [heapified.kept] at mem
    obtain ⟨z, less, same⟩ := mem_bag.mp mem
    rw [← same, heapified.outside y behind]
    exact exchanged_front state (by omega) behind high
  · rw [bag_extend heapified.kept (by omega) heapified.outside, ← state.kept]
    exact swapped_bag (by omega) inside
  · intro j behind
    rw [heapified.outside j (by omega), swapped_other (by omega) (by omega)]
    exact state.outside j behind

theorem sort_loop_runs {start : Mem Int} {i : Nat} (state : Selecting start size arr i) :
    ∃ sorted, (∀ length ≥ size, ∀ fuel > size,
        sortLoop length fuel i (i + 1) arr = some sorted) ∧ Selecting start size sorted 0 := by
  induction i generalizing arr with
  | zero => exact ⟨arr, fun _ _ _ _ => rfl, state⟩
  | succ i ih =>
    have inside := state.inside
    obtain ⟨next, run, heapified⟩ :=
      maxheapify_runs (hole_at_root state.heap) (fun positive => absurd positive (lt_irrefl 0))
    obtain ⟨sorted, rest, final⟩ := ih (selecting_round state heapified)
    refine ⟨sorted, ?_, final⟩
    intro length within fuel enough
    rw [sortLoop, swap_within (by omega) (by omega), Option.bind_eq_bind, Option.bind_some]
    change (maxheapify length fuel (swapped arr 0 (i + 1)) (i + 1) 0).bind _ = _
    rw [run length (by omega) fuel (by omega)]
    exact rest length within fuel enough

theorem selecting_begins {heap : Mem Int} {i : Nat} (heapified : Heapified arr 0 (i + 1) heap) :
    Selecting arr (i + 1) heap i := by
  constructor
  · omega
  · exact heapified.ordered
  · omega
  · omega
  · exact heapified.kept
  · exact heapified.outside

theorem selecting_ends {start : Mem Int} (state : Selecting start size arr 0) :
    (slice arr 0 size).Pairwise (· ≤ ·) ∧ (slice arr 0 size).Perm (slice start 0 size) := by
  constructor
  · rw [slice, List.pairwise_map]
    apply List.pairwise_lt_range.imp_of_mem
    intro x y _ memY less
    rw [List.mem_range] at memY
    rw [Nat.zero_add, Nat.zero_add]
    by_cases first : x = 0
    · exact state.front x y (by omega) (by omega) memY
    · exact state.sorted x y (by omega) (by omega) memY
  · apply Multiset.coe_eq_coe.mp
    rw [← bag_slice, ← bag_slice, state.kept]

/-- The outcome is the same in every array of at least size elements, also of exactly size, so
    no index behind them is used. -/
theorem heapsort_sorts (arr : Mem Int) (size : Nat) :
    ∃ sorted, (∃ enough, ∀ fuel ≥ enough, ∀ length ≥ size,
        heapsort length fuel arr size = some sorted) ∧
      (∀ i, size ≤ i → sorted i = arr i) ∧
      (slice sorted 0 size).Pairwise (· ≤ ·) ∧
      (slice sorted 0 size).Perm (slice arr 0 size) := by
  obtain ⟨heap, build, heapified⟩ := buildheap_runs arr size
  cases size with
  | zero =>
    refine ⟨heap, ⟨1, ?_⟩, heapified.outside, List.Pairwise.nil, List.Perm.refl _⟩
    intro fuel enough length within
    rw [heapsort, build length within fuel enough]
    rfl
  | succ i =>
    obtain ⟨sorted, run, final⟩ := sort_loop_runs (selecting_begins heapified)
    refine ⟨sorted, ⟨i + 2, ?_⟩, final.outside, selecting_ends final⟩
    intro fuel enough length within
    rw [heapsort, build length within fuel enough]
    exact run length within fuel enough

end UC.Heapsort
