import UC.Lib.Memory
import Mathlib.Data.List.Infix
import Mathlib.Data.Nat.ModEq

/- A cyclic buffer of a fixed size that carries a stream: element number p of the
   stream sits in cell p % size, and the live part of the stream is a window of
   at most size consecutive numbers. -/
namespace UC.Ring
open UC.Memory

variable {α : Type*}

/-- The cells that carry stream numbers start .. start + len - 1. -/
def window (m : Mem α) (size start len : Nat) : List α :=
  (List.range len).map fun i => m ((start + i) % size)

@[simp] theorem window_length (m : Mem α) (size start len : Nat) :
    (window m size start len).length = len := by
  simp [window]

theorem window_add (m : Mem α) (size start a b : Nat) :
    window m size start (a + b) = window m size start a ++ window m size (start + a) b := by
  simp [window, List.range_add, Nat.add_assoc]

theorem window_one (m : Mem α) (size start : Nat) :
    window m size start 1 = [m (start % size)] := by
  simp [window]

theorem window_take (m : Mem α) (size start len k : Nat) (h : k ≤ len) :
    (window m size start len).take k = window m size start k := by
  obtain ⟨r, rfl⟩ := Nat.exists_eq_add_of_le h
  rw [window_add, List.take_left' (window_length m size start k)]

theorem window_drop (m : Mem α) (size start len k : Nat) (h : k ≤ len) :
    (window m size start len).drop k = window m size (start + k) (len - k) := by
  obtain ⟨r, rfl⟩ := Nat.exists_eq_add_of_le h
  rw [window_add, List.drop_left' (window_length m size start k), Nat.add_sub_cancel_left]

theorem window_congr {m m' : Mem α} {size start len : Nat}
    (same : ∀ i < len, m ((start + i) % size) = m' ((start + i) % size)) :
    window m size start len = window m' size start len := by
  apply List.map_congr_left
  intro i hi
  exact same i (List.mem_range.mp hi)

/-- Two numbers of one window never share a cell. -/
theorem cell_injective {size start i j : Nat} (hi : i < size) (hj : j < size)
    (same : (start + i) % size = (start + j) % size) : i = j := by
  have h : i ≡ j [MOD size] := Nat.ModEq.add_left_cancel' start same
  exact Nat.ModEq.eq_of_lt_of_lt h hi hj

theorem window_store_outside (m : Mem α) {size start len k : Nat} (v : α)
    (lower : len ≤ k) (upper : k < size) :
    window (store m ((start + k) % size) v) size start len = window m size start len := by
  apply window_congr
  intro i hi
  apply store_other
  intro same
  have := cell_injective (by omega) upper same
  omega

theorem window_push (m : Mem α) {size start len : Nat} (v : α) (room : len < size) :
    window (store m ((start + len) % size) v) size start (len + 1) =
      window m size start len ++ [v] := by
  rw [window_add, window_store_outside m v (Nat.le_refl len) room, window_one, store_same]

/-- Addresses of the cell that carries number pos + i, when a copy that starts at
    the cell of pos is split at the end of the buffer. -/
theorem split_cell {size pos i : Nat} (hi : i < size) :
    (pos + i) % size =
      if i < size - pos % size then pos % size + i else i - (size - pos % size) := by
  have hpos := Nat.mod_lt pos (Nat.lt_of_le_of_lt (Nat.zero_le i) hi)
  rw [Nat.add_mod, Nat.mod_eq_of_lt hi]
  split
  · exact Nat.mod_eq_of_lt (by omega)
  · rw [Nat.mod_eq_sub_mod (by omega), Nat.mod_eq_of_lt (by omega)]
    omega

/-- Copying into the ring in two parts: up to the buffer end, then from cell 0. -/
theorem copy_in (m src : Mem α) {size pos len r : Nat} (fits : len ≤ size) (hr : r < size) :
    memcpy (memcpy m (pos % size) src 0 (min len (size - pos % size)))
        0 src (min len (size - pos % size)) (len - min len (size - pos % size))
        ((pos + r) % size) =
      if r < len then src r else m ((pos + r) % size) := by
  have hpos := Nat.mod_lt pos (Nat.lt_of_le_of_lt (Nat.zero_le r) hr)
  rw [split_cell hr]
  simp only [memcpy]
  generalize pos % size = off at *
  by_cases first : r < size - off
  · simp only [first, if_true]
    by_cases taken : r < len
    · rw [if_neg (by omega), if_pos (by omega), if_pos taken]
      congr 1
      omega
    · rw [if_neg (by omega), if_neg (by omega), if_neg taken]
  · simp only [first, if_false]
    by_cases taken : r < len
    · rw [if_pos (by omega), if_pos taken]
      congr 1
      omega
    · rw [if_neg (by omega), if_neg (by omega), if_neg taken]

theorem copy_out (dst m : Mem α) {size pos len x : Nat} (fits : len ≤ size)
    (pos_size : 0 < size) :
    memcpy (memcpy dst 0 m (pos % size) (min len (size - pos % size)))
        (min len (size - pos % size)) m 0 (len - min len (size - pos % size)) x =
      if x < len then m ((pos + x) % size) else dst x := by
  have hpos := Nat.mod_lt pos pos_size
  simp only [memcpy]
  by_cases taken : x < len
  · rw [if_pos taken, split_cell (by omega : x < size)]
    generalize pos % size = off at *
    by_cases first : x < size - off
    · rw [if_neg (by omega), if_pos (by omega), if_pos first]
      congr 1
    · rw [if_pos (by omega), if_neg first]
      congr 1
      omega
  · rw [if_neg (by omega), if_neg (by omega), if_neg taken]

theorem window_extend {m m' : Mem α} {size start used len : Nat} (src : Mem α)
    (room : used + len ≤ size)
    (copied : ∀ r < size, m' ((start + used + r) % size) =
      if r < len then src r else m ((start + used + r) % size)) :
    window m' size start (used + len) = window m size start used ++ slice src 0 len := by
  rw [window_add]
  congr 1
  · apply window_congr
    intro i hi
    -- one revolution further on, number i is number size - used + i of the copy
    have turn : (start + i) % size = (start + used + (size - used + i)) % size := by
      rw [show start + used + (size - used + i) = start + i + size by omega, Nat.add_mod_right]
    by_cases full : size - used + i < size
    · rw [turn, copied _ full, if_neg (by omega)]
    · omega
  · apply List.map_congr_left
    intro i hi
    have hi := List.mem_range.mp hi
    rw [copied i (by omega), if_pos hi, Nat.zero_add]

end UC.Ring
