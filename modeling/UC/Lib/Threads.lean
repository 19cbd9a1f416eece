import Mathlib.Algebra.BigOperators.Group.List.Basic
import Mathlib.Algebra.Order.BigOperators.Group.List
import Mathlib.Algebra.Order.Group.Nat

/- Threads as the list of the places they stand at, one of which moves in a step. A total is
   what the places weigh together; the weight of a step is what its thread gains. -/
namespace UC.Threads

variable {P M : Type*} [AddCommMonoid M]

def total (w : P → M) (threads : List P) : M := (threads.map w).sum

theorem total_set {w : P → M} {threads : List P} {i : Nat} {p : P} (here : threads[i]? = some p)
    (q : P) : total w (threads.set i q) + w p = total w threads + w q := by
  induction threads generalizing i with
  | nil => simp at here
  | cons first rest ih =>
    cases i with
    | zero =>
      obtain rfl : first = p := by simpa using here
      simp only [total, List.set_cons_zero, List.map_cons, List.sum_cons]
      rw [add_comm (w q), add_comm (w first), add_assoc, add_assoc, add_comm (w q)]
    | succ i =>
      have later := ih (by simpa using here)
      simp only [total, List.set_cons_succ, List.map_cons, List.sum_cons] at later ⊢
      rw [add_assoc, later, add_assoc]

theorem map_set {β : Type*} {f : P → β} {threads : List P} {i : Nat} {p : P}
    (here : threads[i]? = some p) {q : P} (same : f q = f p) :
    (threads.set i q).map f = threads.map f := by
  apply List.ext_getElem?
  intro j
  rw [List.getElem?_map, List.getElem?_map, List.getElem?_set]
  split
  · rename_i at_j
    subst at_j
    rw [if_pos (List.getElem?_eq_some_iff.mp here).1, here, Option.map_some, Option.map_some, same]
  · rfl

theorem mem_map_set {β : Type*} {f : P → β} {threads : List P} {i : Nat} {p : P}
    (here : threads[i]? = some p) {b : β} (member : b ∈ threads.map f) (q : P) :
    b = f p ∨ b ∈ (threads.set i q).map f := by
  obtain ⟨r, inside, rfl⟩ := List.mem_map.mp member
  obtain ⟨j, at_j⟩ := List.mem_iff_getElem?.mp inside
  by_cases same : j = i
  · subst same
    rw [here] at at_j
    cases at_j
    exact .inl rfl
  · right
    apply List.mem_map_of_mem
    apply List.mem_iff_getElem?.mpr
    exact ⟨j, by rw [List.getElem?_set_ne (Ne.symm same)]; exact at_j⟩

theorem total_zero {w : P → M} {threads : List P} (none : ∀ p ∈ threads, w p = 0) :
    total w threads = 0 := by
  rw [total, List.map_congr_left none]
  simp

theorem two_le_total {w : P → Nat} {threads : List P} {i j : Nat} {p q : P} (apart : i ≠ j)
    (first : threads[i]? = some p) (second : threads[j]? = some q) :
    w p + w q ≤ total w threads := by
  induction threads generalizing i j with
  | nil => simp at first
  | cons head rest ih =>
    have one : ∀ {k : Nat} {r : P}, rest[k]? = some r → w r ≤ total w rest := by
      intro k r here
      exact List.single_le_sum (fun _ _ => Nat.zero_le _) _
        (List.mem_map_of_mem (List.mem_of_getElem? here))
    rw [total, List.map_cons, List.sum_cons]
    cases i with
    | zero =>
      obtain rfl : head = p := by simpa using first
      cases j with
      | zero => exact absurd rfl apart
      | succ j => exact Nat.add_le_add_left (one (by simpa using second)) _
    | succ i =>
      cases j with
      | zero =>
        obtain rfl : head = q := by simpa using second
        rw [Nat.add_comm (w p)]
        exact Nat.add_le_add_left (one (by simpa using first)) _
      | succ j =>
        have both := ih (i := i) (j := j) (by omega) (by simpa using first) (by simpa using second)
        exact Nat.le_trans both (Nat.le_add_left _ _)

end UC.Threads
