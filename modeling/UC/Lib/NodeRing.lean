import UC.Lib.Ring

/- A ring of N nodes of ns cells each. Positions are free running: position v stands
   for node v % N, and a region of at most N positions meets every node once. -/
namespace UC.NodeRing
open UC.Memory UC.Ring

variable {α : Type*} {N ns : Nat}

/-- First cell of the node of position v. -/
def nodeCell (N ns v : Nat) : Nat := v % N * ns

/-- Two memories with the same contents in the nodes of positions a .. b - 1. -/
def Agree (N ns : Nat) (m m' : Mem α) (a b : Nat) : Prop :=
  ∀ v, a ≤ v → v < b → ∀ o < ns, m (nodeCell N ns v + o) = m' (nodeCell N ns v + o)

theorem agree_trans {m m' m'' : Mem α} {a b : Nat} (first : Agree N ns m m' a b)
    (second : Agree N ns m' m'' a b) : Agree N ns m m'' a b := by
  intro v lower upper o ho
  rw [first v lower upper o ho, second v lower upper o ho]

theorem agree_inside {m m' : Mem α} {a b c d : Nat} (agree : Agree N ns m m' a b)
    (lower : a ≤ c) (upper : d ≤ b) : Agree N ns m m' c d := by
  intro v lo hi o ho
  exact agree v (by omega) (by omega) o ho

/-- Positions less than one turn apart stand for different nodes. -/
theorem node_distinct {v w : Nat} (below : v < w) (near : w < v + N) : v % N ≠ w % N := by
  obtain ⟨d, rfl⟩ := Nat.exists_eq_add_of_lt below
  intro same
  have equal : 0 = d + 1 :=
    @cell_injective N v 0 (d + 1) (by omega) (by omega) (by rwa [Nat.add_zero])
  omega

theorem other_node {v w o : Nat} (ne : v % N ≠ w % N) (ho : o < ns) :
    nodeCell N ns v + o < nodeCell N ns w ∨ nodeCell N ns w + ns ≤ nodeCell N ns v + o := by
  unfold nodeCell
  rcases Nat.lt_or_gt_of_ne ne with less | greater
  · left
    have step := Nat.mul_le_mul_right ns less
    rw [Nat.succ_mul] at step
    omega
  · right
    have step := Nat.mul_le_mul_right ns greater
    rw [Nat.succ_mul] at step
    omega

theorem block_node {s k n : Nat} (inside : s % N + n ≤ N) (hk : k < n) :
    (s + k) % N = s % N + k := by
  rw [Nat.add_mod_eq_ite, Nat.mod_eq_of_lt (a := k) (by omega)]
  split <;> omega

theorem block_cell {s n x : Nat} (inside : s % N + n ≤ N) (hx : x < n * ns) :
    ∃ k < n, ∃ o < ns, nodeCell N ns s + x = nodeCell N ns (s + k) + o := by
  have pos : 0 < ns := Nat.pos_of_mul_pos_left (Nat.zero_lt_of_lt hx)
  have node : x / ns < n := (Nat.div_lt_iff_lt_mul pos).mpr hx
  refine ⟨x / ns, node, x % ns, Nat.mod_lt x pos, ?_⟩
  unfold nodeCell
  rw [block_node inside node, Nat.add_mul, Nat.add_assoc, Nat.mul_comm (x / ns),
    Nat.div_add_mod]

theorem agree_block {m m' : Mem α} {s n : Nat} (agree : Agree N ns m m' s (s + n))
    (inside : s % N + n ≤ N) :
    ∀ x < n * ns, m (nodeCell N ns s + x) = m' (nodeCell N ns s + x) := by
  intro x hx
  obtain ⟨k, hk, o, ho, eq⟩ := block_cell inside hx
  rw [eq]
  exact agree (s + k) (by omega) (by omega) o ho

/-- A write that stays inside the nodes of a block leaves every other node alone. -/
theorem agree_outside_block {m m' : Mem α} {s n a b : Nat} (inside : s % N + n ≤ N)
    (apart : ∀ v, a ≤ v → v < b → ∀ k < n, v % N ≠ (s + k) % N)
    (local_write : ∀ x, (x < nodeCell N ns s ∨ nodeCell N ns s + n * ns ≤ x) → m' x = m x) :
    Agree N ns m m' a b := by
  intro v lower upper o ho
  symm
  apply local_write
  by_contra within
  obtain ⟨k, hk, o', ho', eq⟩ :=
    @block_cell N ns s n (nodeCell N ns v + o - nodeCell N ns s) inside (by omega)
  have cells := other_node (apart v lower upper k hk) ho
  omega

end UC.NodeRing
