import UC.ShmQueue.Sequential

/- The reserve gap of RESERVE_BLOCK_COUNT nodes. A put that turns round to node 0 compares
   head_pos - 1 with the nodes it needs and leaves out the reserve. -/
namespace UC.ShmQueue
open UC.Memory UC.NodeRing

/-- new_tail < old_tail in sq_put. -/
def Wraps (queue : SqHead) (datalen : Int) : Prop :=
  addPos queue queue.tail_pos (numNeededNodes queue datalen) < queue.tail_pos

theorem next_lap {N h s : Nat} (above : h < s) (near : s < h + N) (zero : s % N = 0) :
    s + h % N = h + N := by
  have pos : 0 < N := by omega
  have low := Nat.div_add_mod h N
  have cell := Nat.mod_lt h pos
  have high := Nat.div_add_mod s N
  rw [zero, Nat.add_zero] at high
  have after : h / N < s / N := by
    refine Nat.lt_of_mul_lt_mul_left (a := N) ?_
    omega
  have before : s / N < h / N + 2 := by
    refine Nat.lt_of_mul_lt_mul_left (a := N) ?_
    rw [Nat.mul_add]
    omega
  have one : s / N = h / N + 1 := by omega
  rw [one, Nat.mul_add] at high
  omega

section Put

variable {N ns h t : Nat} {s : Caller}

theorem reserved_straight {queue : SqHead} {datalen : Int} {r : Reservation}
    (reserved : reserve queue datalen = some r) (straight : ¬ Wraps queue datalen) :
    numNeededNodes queue datalen + RESERVE_BLOCK_COUNT ≤ emptyNodes queue ∧
      r.idx = queue.tail_pos := by
  unfold Wraps at straight
  unfold reserve at reserved
  dsimp only at reserved
  split at reserved
  · cases reserved
  next room =>
    cases reserved
    exact ⟨not_lt.mp room, rfl⟩

theorem reserved_turned {queue : SqHead} {datalen : Int} {r : Reservation}
    (reserved : reserve queue datalen = some r) (turned : Wraps queue datalen) : r.idx = 0 := by
  unfold Wraps at turned
  unfold reserve at reserved
  dsimp only at reserved
  split at reserved
  · cases reserved
  split at reserved
  · cases reserved
  · cases reserved
    rfl

/-- An accepted put begins at the tail, or at the multiple of N behind it when it turns round. -/
theorem put_place (between : Between N ns s h t) {datalen : Int} {p : Nat} {new_tail : Int}
    (low : 1 ≤ datalen) (high : datalen ≤ MAX_SQ_DATA_LENGTH)
    (room : p + need ns datalen.toNat < h + N)
    (reserved : reserve s.sq.head datalen = some ⟨(p % N : Nat), (t % N : Nat), new_tail⟩)
    (placed : Placed N t p (need ns datalen.toNat)) :
    (Wraps s.sq.head datalen → p + h % N = h + N) ∧
    (¬ Wraps s.sq.head datalen → p = t ∧
      (need ns datalen.toNat : Int) + RESERVE_BLOCK_COUNT ≤ ((h + N - 1 - t : Nat) : Int)) := by
  have le := layout_le between.stored
  have empty := empty_nodes between.shape le between.near between.tail_at
  rw [← between.head_at] at empty
  change emptyNodes _ = _ at empty
  have beyond : p < h + N := Nat.lt_of_le_of_lt (Nat.le_add_right _ _) room
  have needed := num_needed between.shape (Int.le_trans (by decide) low) high
  obtain ⟨after, wrap, _, _⟩ := placed
  constructor
  · intro turned
    have node : ((p % N : Nat) : Int) = 0 := reserved_turned reserved turned
    have ne : p ≠ t := by
      rintro rfl
      -- a put turns round only from a tail behind node 0
      have smaller := turned
      unfold Wraps at smaller
      rw [between.tail_at, needed, add_pos between.shape, node] at smaller
      exact absurd smaller (not_lt.mpr (Int.natCast_nonneg _))
    exact next_lap (Nat.lt_of_le_of_lt le (Nat.lt_of_le_of_ne after ne.symm)) beyond (wrap ne).1
  · intro turned
    have gap := (reserved_straight reserved turned).1
    have node : ((p % N : Nat) : Int) = _ := (reserved_straight reserved turned).2
    rw [needed, empty] at gap
    refine ⟨?_, gap⟩
    by_contra skip
    rw [between.tail_at] at node
    have same : p % N = t % N := Int.ofNat.inj node
    have nearby := (wrap skip).2
    exact node_distinct (Nat.lt_of_le_of_ne after (Ne.symm skip)) nearby same.symm

end Put

end UC.ShmQueue
