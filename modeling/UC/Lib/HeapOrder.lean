import Mathlib.Data.Finset.Range
import Mathlib.Data.Multiset.Range
import Mathlib.Order.Lattice
import UC.Lib.Cells
import UC.Lib.Memory

/- Binary heaps in an array, over any linear order. Sifting moves a hole along one path;
   the element that is sifted is put into the hole at the end. -/
namespace UC.HeapOrder
open UC.Memory

variable {α : Type*}

def bag (m : Mem α) (n : Nat) : Multiset α := (Multiset.range n).map m

theorem bag_succ (m : Mem α) (n : Nat) : bag m (n + 1) = m n ::ₘ bag m n := by
  simp [bag, Multiset.range_succ]

theorem bag_congr {m m' : Mem α} {n : Nat} (same : ∀ i < n, m i = m' i) : bag m n = bag m' n :=
  Multiset.map_congr rfl fun i mem => same i (Multiset.mem_range.mp mem)

theorem mem_bag {m : Mem α} {n : Nat} {v : α} : v ∈ bag m n ↔ ∃ i < n, m i = v := by
  simp [bag]

theorem bag_store (m : Mem α) {i n : Nat} (inside : i < n) (v : α) :
    m i ::ₘ bag (store m i v) n = v ::ₘ bag m n := by
  have replaced := Cells.bag_set m (Finset.mem_range.mpr inside) v
  rw [add_comm, Multiset.singleton_add, add_comm, Multiset.singleton_add] at replaced
  exact replaced

/-- Equal bags stay equal if the same cells are added to both. -/
theorem bag_extend {m m' : Mem α} {n k : Nat} (same : bag m n = bag m' n) (le : n ≤ k)
    (behind : ∀ j, n ≤ j → m j = m' j) : bag m k = bag m' k := by
  induction k, le using Nat.le_induction with
  | base => exact same
  | succ k le ih => rw [bag_succ, bag_succ, ih, behind k le]

theorem bag_slice (m : Mem α) (n : Nat) : bag m n = (slice m 0 n : Multiset α) := by
  simp [bag, slice, Multiset.range]

/-- The hole goes from i to j: the element of j moves to i. -/
theorem bag_move (m : Mem α) {i j n : Nat} (hi : i < n) (hj : j < n) (v : α) :
    bag (store (store m i (m j)) j v) n = bag (store m i v) n :=
  Cells.bag_move m (Finset.mem_range.mpr hi) (Finset.mem_range.mpr hj) v

def parent (i : Nat) : Nat := (i - 1) / 2

theorem parent_lt {i : Nat} (pos : 0 < i) : parent i < i := by
  unfold parent
  omega

theorem child_cases {i j : Nat} (pos : 0 < j) (child : parent j = i) :
    j = i * 2 + 1 ∨ j = i * 2 + 2 := by
  unfold parent at child
  omega

theorem parent_left (i : Nat) : parent (i * 2 + 1) = i := by
  unfold parent
  omega

theorem parent_right (i : Nat) : parent (i * 2 + 2) = i := by
  unfold parent
  omega

section
variable {R : α → α → Prop} {m : Mem α} {k n i : Nat}

/-- Every element is related to its children, for parents from k on. -/
def OrderedFrom (R : α → α → Prop) (m : Mem α) (k n : Nat) : Prop :=
  ∀ j, 0 < j → j < n → k ≤ parent j → R (m (parent j)) (m j)

/-- The element of cell i is in no order yet; all others are, also across it. -/
structure HoleFrom (R : α → α → Prop) (m : Mem α) (k n i : Nat) : Prop where
  inside : i < n
  others : ∀ j, 0 < j → j < n → k ≤ parent j → j ≠ i → parent j ≠ i → R (m (parent j)) (m j)
  across : 0 < i → k ≤ parent i → ∀ j, 0 < j → j < n → parent j = i → R (m (parent i)) (m j)

theorem hole_from_store (hole : HoleFrom R m k n i) (v : α) : HoleFrom R (store m i v) k n i := by
  constructor
  · exact hole.inside
  · intro j pos inside bounded other apart
    rw [store_other _ _ other, store_other _ _ apart]
    exact hole.others j pos inside bounded other apart
  · intro ipos bounded j pos inside child
    have up := parent_lt ipos
    have down := parent_lt pos
    rw [store_other _ _ (by omega), store_other _ _ (by omega)]
    exact hole.across ipos bounded j pos inside child

theorem fill_hole_from (hole : HoleFrom R m k n i)
    (above : 0 < i → k ≤ parent i → R (m (parent i)) (m i))
    (below : ∀ j, 0 < j → j < n → parent j = i → R (m i) (m j)) : OrderedFrom R m k n := by
  intro j pos inside bounded
  by_cases here : j = i
  · subst here
    exact above pos bounded
  · by_cases child : parent j = i
    · rw [child]
      exact below j pos inside child
    · exact hole.others j pos inside bounded here child

/-- The element of a child c moves up, if its siblings may stand below it. -/
theorem hole_from_moves_down {c : Nat} (hole : HoleFrom R m k n i) (pos : 0 < c)
    (inside : c < n) (child : parent c = i)
    (first : ∀ j, 0 < j → j < n → parent j = i → R (m c) (m j)) :
    HoleFrom R (store m i (m c)) k n c := by
  have down := parent_lt pos
  constructor
  · exact inside
  · intro j jpos jin bounded other apart
    by_cases here : j = i
    · subst here
      rw [store_same, store_other _ _ (parent_lt jpos).ne]
      exact hole.across jpos bounded c pos inside child
    · rw [store_other _ _ here]
      by_cases sibling : parent j = i
      · rw [sibling, store_same]
        exact first j jpos jin sibling
      · rw [store_other _ _ sibling]
        exact hole.others j jpos jin bounded here sibling
  · intro _ bounded j jpos jin below
    have deeper := parent_lt jpos
    rw [child, store_same, store_other _ _ (by omega)]
    have edge := hole.others j jpos jin (by omega) (by omega) (by omega)
    rwa [below] at edge

theorem root_first [Std.Refl R] [IsTrans α R] (ordered : OrderedFrom R m 0 n) (inside : i < n) :
    R (m 0) (m i) := by
  induction i using Nat.strongRecOn with
  | ind i ih =>
    rcases Nat.eq_zero_or_pos i with root | pos
    · rw [root]
      exact Std.Refl.refl _
    · have up := parent_lt pos
      exact IsTrans.trans _ _ _ (ih (parent i) up (by omega)) (ordered i pos inside (Nat.zero_le _))

end

variable [LinearOrder α]

def Ordered (m : Mem α) (n : Nat) : Prop := ∀ i, 0 < i → i < n → m (parent i) ≤ m i

theorem ordered_iff {m : Mem α} {n : Nat} : Ordered m n ↔ OrderedFrom (· ≤ ·) m 0 n :=
  ⟨fun ordered i pos inside _ => ordered i pos inside,
    fun ordered i pos inside => ordered i pos inside (Nat.zero_le _)⟩

theorem root_least {m : Mem α} {n i : Nat} (ordered : Ordered m n) (inside : i < n) :
    m 0 ≤ m i := root_first (ordered_iff.mp ordered) inside

/-- Cell i is free; all other cells are in order, also across the hole. -/
structure Hole (m : Mem α) (n i : Nat) : Prop where
  inside : i < n
  others : ∀ j, 0 < j → j < n → j ≠ i → parent j ≠ i → m (parent j) ≤ m j
  across : 0 < i → ∀ j, 0 < j → j < n → parent j = i → m (parent i) ≤ m j

theorem hole_iff {m : Mem α} {n i : Nat} : Hole m n i ↔ HoleFrom (· ≤ ·) m 0 n i :=
  ⟨fun hole => ⟨hole.inside, fun j pos inside _ => hole.others j pos inside,
      fun pos _ => hole.across pos⟩,
    fun hole => ⟨hole.inside, fun j pos inside => hole.others j pos inside (Nat.zero_le _),
      fun pos => hole.across pos (Nat.zero_le _)⟩⟩

theorem fill_hole {m : Mem α} {n i : Nat} {v : α} (hole : Hole m n i)
    (above : 0 < i → m (parent i) ≤ v)
    (below : ∀ j, 0 < j → j < n → parent j = i → v ≤ m j) : Ordered (store m i v) n := by
  apply ordered_iff.mpr
  apply fill_hole_from (hole_from_store (hole_iff.mp hole) v)
  · intro pos _
    rw [store_same, store_other _ _ (parent_lt pos).ne]
    exact above pos
  · intro j pos inside child
    have down := parent_lt pos
    rw [store_same, store_other _ _ (by omega)]
    exact below j pos inside child

theorem hole_moves_up {m : Mem α} {n i : Nat} (hole : Hole m n i) (pos : 0 < i) :
    Hole (store m i (m (parent i))) n (parent i) := by
  have up := parent_lt pos
  have inside := hole.inside
  constructor
  · omega
  · intro j jpos jin other apart
    have ne : j ≠ i := fun same => apart (by rw [same])
    rw [store_other _ _ ne]
    by_cases child : parent j = i
    · rw [child, store_same]
      exact hole.across pos j jpos jin child
    · rw [store_other _ _ child]
      exact hole.others j jpos jin ne child
  · intro ppos j jpos jin sibling
    have higher := parent_lt ppos
    have grand : m (parent (parent i)) ≤ m (parent i) :=
      hole.others _ ppos (by omega) (by omega) (by omega)
    rw [store_other _ _ (by omega)]
    by_cases same : j = i
    · rw [same, store_same]
      exact grand
    · rw [store_other _ _ same]
      have beside := hole.others j jpos jin same (by omega)
      rw [sibling] at beside
      exact grand.trans beside

theorem hole_moves_down {m : Mem α} {n i c : Nat} (hole : Hole m n i) (pos : 0 < c)
    (inside : c < n) (child : parent c = i)
    (least : ∀ j, 0 < j → j < n → parent j = i → m c ≤ m j) :
    Hole (store m i (m c)) n c :=
  hole_iff.mpr (hole_from_moves_down (hole_iff.mp hole) pos inside child least)

end UC.HeapOrder
