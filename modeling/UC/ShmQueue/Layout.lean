import UC.Lib.NodeRing
import UC.ShmQueue.Model

/- How messages lie in the ring. Positions are counted on without end, so that the live
   region reads from left to right; only the node numbers are taken modulo the ring. -/
namespace UC.ShmQueue
open UC.Memory UC.Words UC.NodeRing

structure Shape (queue : SqHead) (N ns : Nat) : Prop where
  count : queue.ele_count + 1 = N
  reserve : 101 < N
  node : nodeSize queue = ns
  wide : 16 < ns
  narrow : ns < 2 ^ 31 + 16

def need (ns len : Nat) : Nat := (len + 16 + ns - 1) / ns

theorem need_pos {ns : Nat} (wide : 16 < ns) (len : Nat) : 0 < need ns len :=
  Nat.div_pos (by omega) (by omega)

theorem need_fits {ns : Nat} (wide : 16 < ns) (len : Nat) : len + 16 ≤ need ns len * ns := by
  have quotient := Nat.div_add_mod (len + 16 + ns - 1) ns
  have rest := Nat.mod_lt (len + 16 + ns - 1) (show ns > 0 by omega)
  unfold need
  rw [Nat.mul_comm]
  omega

theorem need_le {ns len k : Nat} (wide : 16 < ns) (room : len + 16 ≤ k * ns) :
    need ns len ≤ k := by
  rw [← Nat.lt_succ_iff, need, Nat.div_lt_iff_lt_mul (by omega), Nat.succ_mul]
  omega

section Positions

variable {queue : SqHead} {N ns : Nat}

theorem add_pos (shape : Shape queue N ns) (v k : Nat) :
    addPos queue (v % N : Nat) k = ((v + k) % N : Nat) := by
  unfold addPos
  rw [shape.count, ← Nat.mod_add_mod v N k]
  exact (Int.ofNat_tmod (v % N + k) N).symm

theorem next_pos (shape : Shape queue N ns) (v : Nat) :
    addPos queue (v % N : Nat) 1 = ((v + 1) % N : Nat) := add_pos shape v 1

theorem empty_nodes (shape : Shape queue N ns) {h t : Nat} (le : h ≤ t) (near : t < h + N)
    (tail_at : queue.tail_pos = (t % N : Nat)) :
    emptyNodes2 queue (h % N : Nat) = (h + N - 1 - t : Nat) := by
  obtain ⟨d, rfl⟩ := Nat.exists_eq_add_of_le le
  have cell := Nat.mod_lt h (show N > 0 by have := shape.reserve; omega)
  have tail_cell : (h + d) % N = h % N + d ∨ (h + d) % N + N = h % N + d := by
    rw [Nat.add_mod_eq_ite, Nat.mod_eq_of_lt (show d < N by omega)]
    split <;> omega
  have sum : ((h % N : Nat) : Int) + queue.ele_count - queue.tail_pos =
      ((h % N + (N - 1) - (h + d) % N : Nat) : Int) := by
    have := shape.count
    have := Nat.mod_lt (h + d) (show N > 0 by omega)
    omega
  unfold emptyNodes2
  rw [sum, shape.count, ← Int.ofNat_tmod]
  congr 1
  rcases tail_cell with straight | wrapped
  · rw [Nat.mod_eq_of_lt (by omega)]
    omega
  · have beyond : h % N + (N - 1) - (h + d) % N = N - 1 - d + N := by omega
    rw [beyond, Nat.add_mod_right, Nat.mod_eq_of_lt (by omega)]
    omega

theorem used_nodes (shape : Shape queue N ns) {h t : Nat} (le : h ≤ t) (near : t < h + N)
    (tail_at : queue.tail_pos = (t % N : Nat)) :
    usedNodes2 queue (h % N : Nat) = (t - h : Nat) := by
  have := shape.count
  rw [usedNodes2, empty_nodes shape le near tail_at]
  omega

theorem to_size {x : Int} (low : 0 ≤ x) (high : x < 2 ^ 64) : toSize x = x.toNat := by
  rw [toSize, Int.emod_eq_of_lt low high]

theorem to_u32 {x : Int} (low : 0 ≤ x) (high : x < 2 ^ 32) : toU32 x = x.toNat := by
  rw [toU32, Int.emod_eq_of_lt low high]

theorem to_int {x : Int} (low : 0 ≤ x) (high : x < 2 ^ 31) : toInt x = x :=
  Int.bmod_eq_of_le (by omega) (by omega)

theorem needed_of_int (shape : Shape queue N ns) {datalen : Int} (low : 0 ≤ datalen)
    (high : datalen < 2 ^ 31) : numNeededNodes queue datalen = need ns datalen.toNat := by
  have wide := shape.wide
  have narrow := shape.narrow
  have quotient : need ns datalen.toNat < 2 ^ 31 := by
    apply Nat.div_lt_of_lt_mul
    have := Nat.mul_le_mul_right (2 ^ 31) wide
    omega
  have total : toSize (toSize datalen + nodeHeadSize + ns - 1) = datalen.toNat + 16 + ns - 1 := by
    rw [to_size low (by omega), nodeHeadSize, to_size (by omega) (by omega)]
    omega
  unfold numNeededNodes
  rw [shape.node, total]
  exact to_int (Int.natCast_nonneg _) (by exact_mod_cast quotient)

theorem num_needed (shape : Shape queue N ns) {datalen : Int} (low : 0 ≤ datalen)
    (high : datalen ≤ MAX_SQ_DATA_LENGTH) :
    numNeededNodes queue datalen = need ns datalen.toNat :=
  needed_of_int shape low (high.trans_lt (by decide))

end Positions

/-- A message as its length and its bytes. -/
abbrev Message := Int × List UInt8

def span (ns : Nat) (msg : Message) : Nat := need ns msg.1.toNat

def Tokens (N ns : Nat) (m : Mem UInt8) (token a b : Nat) : Prop :=
  ∀ v, a ≤ v → v < b → startToken m (nodeCell N ns v) = token

/-- Where n contiguous nodes are taken behind position h: at h itself or, leaving out the
    nodes up to the end of the ring, at node 0. Node N - 1 never ends a message. -/
structure Placed (N h s n : Nat) : Prop where
  after : h ≤ s
  wrap : s ≠ h → s % N = 0 ∧ s < h + N
  inside : s % N + n < N
  near : s + n ≤ h + N

structure Block (N ns : Nat) (m : Mem UInt8) (s : Nat) (msg : Message) : Prop where
  low : 1 ≤ msg.1
  high : msg.1 ≤ MAX_SQ_DATA_LENGTH
  token : startToken m (nodeCell N ns s) = TOKEN_HAS_DATA
  len : dataLen m (nodeCell N ns s) = msg.1
  bytes : slice m (nodeCell N ns s + nodeHeadSize) msg.1.toNat = msg.2

/-- A message at position s with the skipped nodes h .. s - 1 before it. -/
structure Entry (N ns : Nat) (m : Mem UInt8) (h s : Nat) (msg : Message) : Prop where
  placed : Placed N h s (span ns msg)
  skipped : Tokens N ns m TOKEN_SKIPPED h s
  block : Block N ns m s msg

/-- The region h .. e - 1 carries these messages, one behind the other. -/
def Layout (N ns : Nat) (m : Mem UInt8) : List Message → Nat → Nat → Prop
  | [], h, e => h = e
  | msg :: rest, h, e =>
    ∃ s, Entry N ns m h s msg ∧ Layout N ns m rest (s + span ns msg) e

section Frame

variable {N ns : Nat} {m m' : Mem UInt8}

theorem token_agree (wide : 16 < ns) {v : Nat} (agree : Agree N ns m m' v (v + 1)) :
    startToken m' (nodeCell N ns v) = startToken m (nodeCell N ns v) := by
  apply load32_congr
  intro i hi
  exact (agree v (by omega) (by omega) i (by omega)).symm

theorem tokens_agree (wide : 16 < ns) {token a b : Nat} (agree : Agree N ns m m' a b)
    (tokens : Tokens N ns m token a b) : Tokens N ns m' token a b := by
  intro v lower upper
  rw [token_agree wide (agree_inside agree lower (by omega))]
  exact tokens v lower upper

theorem block_agree (wide : 16 < ns) {s : Nat} {msg : Message}
    (agree : Agree N ns m m' s (s + span ns msg)) (inside : s % N + span ns msg < N)
    (block : Block N ns m s msg) : Block N ns m' s msg := by
  have fits := need_fits wide msg.1.toNat
  have cells := agree_block agree (by omega)
  have first := need_pos wide msg.1.toNat
  have same : ∀ x < msg.1.toNat + 16, m' (nodeCell N ns s + x) = m (nodeCell N ns s + x) := by
    intro x hx
    exact (cells x (by unfold span; omega)).symm
  have low := block.low
  constructor
  · exact low
  · exact block.high
  · rw [token_agree wide (agree_inside agree (Nat.le_refl s) (by unfold span; omega))]
    exact block.token
  · rw [← block.len]
    unfold dataLen
    congr 2
    apply load32_congr
    intro i hi
    rw [Nat.add_assoc]
    exact (agree s (by omega) (by unfold span; omega) (4 + i) (by omega)).symm
  · rw [← block.bytes]
    apply slice_congr
    intro i hi
    rw [nodeHeadSize, Nat.add_assoc]
    exact same (16 + i) (by omega)

theorem entry_agree (wide : 16 < ns) {h s : Nat} {msg : Message}
    (agree : Agree N ns m m' h (s + span ns msg)) (entry : Entry N ns m h s msg) :
    Entry N ns m' h s msg := by
  have after := entry.placed.after
  constructor
  · exact entry.placed
  · exact tokens_agree wide (agree_inside agree (Nat.le_refl h) (by omega)) entry.skipped
  · exact block_agree wide (agree_inside agree after (Nat.le_refl _)) entry.placed.inside
      entry.block

theorem layout_le {msgs : List Message} {h e : Nat} (layout : Layout N ns m msgs h e) :
    h ≤ e := by
  induction msgs generalizing h with
  | nil => exact Nat.le_of_eq layout
  | cons msg rest ih =>
    obtain ⟨s, entry, behind⟩ := layout
    have after := entry.placed.after
    have := ih behind
    omega

theorem layout_agree (wide : 16 < ns) {msgs : List Message} {h e : Nat}
    (agree : Agree N ns m m' h e) (layout : Layout N ns m msgs h e) :
    Layout N ns m' msgs h e := by
  induction msgs generalizing h with
  | nil => exact layout
  | cons msg rest ih =>
    obtain ⟨s, entry, behind⟩ := layout
    have after := entry.placed.after
    have le := layout_le behind
    exact ⟨s, entry_agree wide (agree_inside agree (Nat.le_refl h) le) entry,
      ih (agree_inside agree (by omega) (Nat.le_refl e)) behind⟩

theorem layout_push {msgs : List Message} {h e s : Nat} {msg : Message}
    (layout : Layout N ns m msgs h e) (entry : Entry N ns m e s msg) :
    Layout N ns m (msgs ++ [msg]) h (s + span ns msg) := by
  induction msgs generalizing h with
  | nil =>
    cases layout
    exact ⟨s, entry, rfl⟩
  | cons first rest ih =>
    obtain ⟨s', head, behind⟩ := layout
    exact ⟨s', head, ih behind⟩

end Frame

end UC.ShmQueue
