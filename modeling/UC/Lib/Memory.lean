import Mathlib.Data.List.Basic
import Mathlib.Data.List.Range

/- Flat memories: a total map from addresses to cells, with the C primitives
   that write it. A cell no program writes keeps its value. -/
namespace UC.Memory

variable {α : Type*}

abbrev Mem (α : Type*) := Nat → α

def store (m : Mem α) (a : Nat) (v : α) : Mem α :=
  fun x => if x = a then v else m x

def memcpy (dst : Mem α) (d : Nat) (src : Mem α) (s n : Nat) : Mem α :=
  fun x => if d ≤ x ∧ x < d + n then src (s + (x - d)) else dst x

/-- The n cells from address a on. -/
def slice (m : Mem α) (a n : Nat) : List α :=
  (List.range n).map fun i => m (a + i)

@[simp] theorem store_same (m : Mem α) (a : Nat) (v : α) : store m a v a = v := by
  simp [store]

theorem store_other (m : Mem α) {a x : Nat} (v : α) (ne : x ≠ a) :
    store m a v x = m x := by
  simp [store, ne]

theorem memcpy_inside (dst src : Mem α) {d s n i : Nat} (h : i < n) :
    memcpy dst d src s n (d + i) = src (s + i) := by
  simp [memcpy, h]

theorem memcpy_outside (dst src : Mem α) {d s n x : Nat} (h : x < d ∨ d + n ≤ x) :
    memcpy dst d src s n x = dst x := by
  simp only [memcpy]
  split
  · omega
  · rfl

@[simp] theorem slice_length (m : Mem α) (a n : Nat) : (slice m a n).length = n := by
  simp [slice]

theorem slice_congr {m m' : Mem α} {a b n : Nat} (same : ∀ i < n, m (a + i) = m' (b + i)) :
    slice m a n = slice m' b n := by
  apply List.map_congr_left
  intro i hi
  exact same i (List.mem_range.mp hi)

theorem slice_add (m : Mem α) (a n k : Nat) :
    slice m a (n + k) = slice m a n ++ slice m (a + n) k := by
  simp [slice, List.range_add, Nat.add_assoc]

theorem slice_take (m : Mem α) (a n k : Nat) :
    (slice m a n).take k = slice m a (min n k) := by
  rcases Nat.le_total n k with h | h
  · rw [Nat.min_eq_left h, List.take_of_length_le (by rwa [slice_length])]
  · obtain ⟨r, rfl⟩ := Nat.exists_eq_add_of_le h
    rw [Nat.min_eq_right h, slice_add, List.take_left' (slice_length m a k)]

theorem slice_memcpy (dst src : Mem α) (d s n : Nat) :
    slice (memcpy dst d src s n) d n = slice src s n :=
  slice_congr fun _ hi => memcpy_inside dst src hi

end UC.Memory
