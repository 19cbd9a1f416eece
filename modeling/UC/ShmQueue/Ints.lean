import UC.Lib.Ints
import UC.ShmQueue.Operations

/- sq_put and sq_get in the int of the source: a sum of positions that does not fit is none.
   In a ring of at most 2^30 nodes there is no such sum, and the operations are those of the
   model. -/
namespace UC.ShmQueue.Ints
open UC.Memory UC.Words UC.Ints

section Macros

variable (queue : SqHead)

def addPos (pos val : Int) : Option Int := do
  let sum ← int (pos + val)
  let modulus ← int (queue.ele_count + 1)
  int (sum.tmod modulus)

def emptyNodes2 (head : Int) : Option Int := do
  let sum ← int (head + queue.ele_count)
  let distance ← int (sum - queue.tail_pos)
  let modulus ← int (queue.ele_count + 1)
  int (distance.tmod modulus)

def usedNodes2 (head : Int) : Option Int := do
  let empty ← emptyNodes2 queue head
  int (queue.ele_count - empty)

def emptyNodes : Option Int := emptyNodes2 queue queue.head_pos

end Macros

def setTokens (queue : SqHead) (token : Nat) (stop : Int) :
    Nat → Int → Mem UInt8 → Option (Mem UInt8)
  | 0, pos, m => if pos = stop then some m else none
  | fuel + 1, pos, m =>
    if pos = stop then some m
    else
      (addPos queue pos 1).bind fun next =>
        setTokens queue token stop fuel next (store32 m (nodeAt queue pos) token)

/-- The inner none is the return of -2. -/
def reserve (queue : SqHead) (datalen : Int) : Option (Option Reservation) := do
  let nr_nodes := numNeededNodes queue datalen
  let empty ← emptyNodes queue
  let wanted ← int (nr_nodes + RESERVE_BLOCK_COUNT)
  if empty < wanted then some none
  else
    let old_tail := queue.tail_pos
    let new_tail ← addPos queue old_tail nr_nodes
    if new_tail < old_tail then
      let before ← int (queue.head_pos - 1)
      if before < nr_nodes then some none else some (some ⟨0, old_tail, nr_nodes⟩)
    else some (some ⟨old_tail, old_tail, new_tail⟩)

def publish (queue : SqHead) (r : Reservation) (now : Timeval) (data : Mem UInt8)
    (datalen : Int) : Option SqHead :=
  let marked :=
    if r.idx = 0 ∧ r.old_tail ≠ 0 then
      setTokens queue TOKEN_SKIPPED 0 (turn queue) r.old_tail queue.nodes
    else some queue.nodes
  marked.map fun m => { queue with nodes := writeNode m (nodeAt queue r.idx) now data datalen }

def sqPut (sq : Handle) (now : Timeval) (data : Mem UInt8) (datalen : Int) :
    Option (Handle × Int) :=
  if datalen ≤ 0 ∨ datalen > MAX_SQ_DATA_LENGTH then
    some ({ sq with errmsg := "Bad argument" }, -1)
  else
    (reserve sq.head datalen).bind fun
      | none => some ({ sq with errmsg := "Not enough for new data" }, -2)
      | some r =>
        (publish { sq.head with tail_pos := r.new_tail } r now data datalen).map fun head =>
          ({ sq with head := head }, 0)

def scan (queue : SqHead) (rw_conflict : Int) : Nat → Int → Option Scan
  | 0, _ => none
  | fuel + 1, head =>
    if queue.tail_pos = head then some (.drained head)
    else
      let node := nodeAt queue head
      let token := startToken queue.nodes node
      if token ≠ TOKEN_HAS_DATA then
        if token = TOKEN_NO_DATA ∧ rw_conflict < SQ_MAX_CONFLICT_TRIES then some .busy
        else (addPos queue head 1).bind fun next => scan queue rw_conflict fuel next
      else
        let datalen := dataLen queue.nodes node
        let nr_nodes := numNeededNodes queue datalen
        (usedNodes2 queue head).bind fun used =>
          if used < nr_nodes then
            (addPos queue head 1).bind fun next => scan queue rw_conflict fuel next
          else (addPos queue head nr_nodes).map fun new_head => .found head datalen new_head

/-- The counter rw_conflict is raised only below SQ_MAX_CONFLICT_TRIES. -/
def claim (sq : Handle) : Option (Handle × Claim) :=
  let old_head := sq.head.head_pos
  (scan sq.head sq.rw_conflict (turn sq.head) old_head).map fun
    | .drained head =>
      if head ≠ old_head then
        ({ sq with head := { sq.head with head_pos := head } }, .skipped old_head head)
      else ({ sq with rw_conflict := 0 }, .noData)
    | .busy => ({ sq with rw_conflict := sq.rw_conflict + 1 }, .noData)
    | .found head datalen new_head =>
      ({ sq with head := { sq.head with head_pos := new_head } },
        .message old_head head new_head datalen)

def release (sq : Handle) (old_head new_head : Int) : Option Handle :=
  (setTokens sq.head 0 new_head (turn sq.head) old_head sq.head.nodes).map fun m =>
    { sq with head := { sq.head with nodes := m }, rw_conflict := 0 }

def finish (sq : Handle) (buf_sz : Int) : Claim → Option (Handle × Got)
  | .noData => some (sq, ⟨0, [], none⟩)
  | .skipped old_head new_head =>
    (release sq old_head new_head).map fun sq => (sq, ⟨0, [], none⟩)
  | .message old_head head new_head datalen =>
    let node := nodeAt sq.head head
    let time := enqueueTime sq.head.nodes node
    if datalen > buf_sz then
      some ({ sq with errmsg := "Data length(" ++ toString (toU32 datalen) ++
        ") exceeds supplied buffer size of " ++ toString (toU32 buf_sz) }, ⟨-2, [], some time⟩)
    else
      let copied := slice sq.head.nodes (node + nodeHeadSize) (toSize datalen)
      (release sq old_head new_head).map fun sq => (sq, ⟨datalen, copied, some time⟩)

def sqGet (sq : Handle) (buf_sz : Int) : Option (Handle × Got) :=
  if buf_sz < 1 then some ({ sq with errmsg := "Bad argument" }, ⟨-1, [], none⟩)
  else (claim sq).bind fun (sq, c) => finish sq buf_sz c

/-- No sum of two positions of the ring is beyond INT_MAX. -/
def Small (queue : SqHead) : Prop := 0 ≤ queue.ele_count ∧ queue.ele_count < 2 ^ 30

/-- A position is the number of a node. -/
def IsNode (queue : SqHead) (pos : Int) : Prop := 0 ≤ pos ∧ pos ≤ queue.ele_count

theorem int_of_bounds {n : Int} (low : -2 ^ 31 ≤ n) (high : n < 2 ^ 31) : int n = some n := by
  apply int_fits
  · exact low
  · exact Int.lt_add_one_iff.mp high

section Sums

variable {queue : SqHead}

theorem add_pos_fits (small : Small queue) {pos val : Int} (node : IsNode queue pos)
    (low : -2 ^ 31 ≤ val) (high : val ≤ 2 ^ 30) :
    addPos queue pos val = some (ShmQueue.addPos queue pos val) := by
  obtain ⟨_, _⟩ := small
  obtain ⟨_, _⟩ := node
  have sum : int (pos + val) = some (pos + val) := by
    exact int_of_bounds (by omega) (by omega)
  have modulus : int (queue.ele_count + 1) = some (queue.ele_count + 1) := by
    exact int_of_bounds (by omega) (by omega)
  have above := Int.tmod_lt_of_pos (pos + val) (show 0 < queue.ele_count + 1 by omega)
  have below := Int.lt_tmod_of_pos (pos + val) (show 0 < queue.ele_count + 1 by omega)
  have rest : int ((pos + val).tmod (queue.ele_count + 1)) =
      some ((pos + val).tmod (queue.ele_count + 1)) := by
    exact int_of_bounds (by omega) (by omega)
  simp only [addPos, sum, modulus, Option.bind_eq_bind, Option.bind_some, rest]
  rfl

theorem node_of_position {N ns : Nat} (shape : Shape queue N ns) (v : Nat) :
    IsNode queue (v % N : Nat) := by
  have count := shape.count
  have node := Nat.mod_lt v (show N > 0 by have := shape.reserve; omega)
  exact ⟨Int.natCast_nonneg _, by omega⟩

theorem small_ring {N ns : Nat} (shape : Shape queue N ns) (small : N ≤ 2 ^ 30) :
    Small queue := by
  have count := shape.count
  have reserve := shape.reserve
  exact ⟨by omega, by omega⟩

theorem next_is_node (small : Small queue) {pos : Int} (node : IsNode queue pos) :
    IsNode queue (ShmQueue.addPos queue pos 1) := by
  obtain ⟨_, _⟩ := small
  obtain ⟨_, _⟩ := node
  have high := Int.tmod_lt_of_pos (pos + 1) (show 0 < queue.ele_count + 1 by omega)
  have low := Int.tmod_nonneg (queue.ele_count + 1) (show 0 ≤ pos + 1 by omega)
  unfold ShmQueue.addPos
  exact ⟨low, by omega⟩

theorem empty_nodes_fits (small : Small queue) {head : Int} (node : IsNode queue head)
    (tail : IsNode queue queue.tail_pos) :
    emptyNodes2 queue head = some (ShmQueue.emptyNodes2 queue head) ∧
      0 ≤ ShmQueue.emptyNodes2 queue head ∧
      ShmQueue.emptyNodes2 queue head ≤ queue.ele_count := by
  obtain ⟨_, _⟩ := small
  obtain ⟨_, _⟩ := node
  obtain ⟨_, _⟩ := tail
  have sum : int (head + queue.ele_count) = some (head + queue.ele_count) := by
    exact int_of_bounds (by omega) (by omega)
  have distance : int (head + queue.ele_count - queue.tail_pos) =
      some (head + queue.ele_count - queue.tail_pos) := by
    exact int_of_bounds (by omega) (by omega)
  have modulus : int (queue.ele_count + 1) = some (queue.ele_count + 1) := by
    exact int_of_bounds (by omega) (by omega)
  have high := Int.tmod_lt_of_pos (head + queue.ele_count - queue.tail_pos)
    (show 0 < queue.ele_count + 1 by omega)
  have low := Int.tmod_nonneg (queue.ele_count + 1)
    (show 0 ≤ head + queue.ele_count - queue.tail_pos by omega)
  have rest : int ((head + queue.ele_count - queue.tail_pos).tmod (queue.ele_count + 1)) =
      some ((head + queue.ele_count - queue.tail_pos).tmod (queue.ele_count + 1)) := by
    exact int_of_bounds (by omega) (by omega)
  refine ⟨?_, low, by unfold ShmQueue.emptyNodes2; omega⟩
  simp only [emptyNodes2, sum, distance, modulus, Option.bind_eq_bind, Option.bind_some, rest]
  rfl

theorem used_nodes_fits (small : Small queue) {head : Int} (node : IsNode queue head)
    (tail : IsNode queue queue.tail_pos) :
    usedNodes2 queue head = some (ShmQueue.usedNodes2 queue head) ∧
      ShmQueue.usedNodes2 queue head ≤ queue.ele_count := by
  obtain ⟨empty, low, high⟩ := empty_nodes_fits small node tail
  obtain ⟨_, _⟩ := small
  have used : int (queue.ele_count - ShmQueue.emptyNodes2 queue head) =
      some (queue.ele_count - ShmQueue.emptyNodes2 queue head) := by
    exact int_of_bounds (by omega) (by omega)
  refine ⟨?_, by unfold ShmQueue.usedNodes2; omega⟩
  simp only [usedNodes2, empty, Option.bind_eq_bind, Option.bind_some, used]
  rfl

theorem set_tokens_fits (small : Small queue) (token : Nat) (stop : Int) (fuel : Nat) {pos : Int}
    (node : IsNode queue pos) (m : Mem UInt8) :
    setTokens queue token stop fuel pos m = ShmQueue.setTokens queue token stop fuel pos m := by
  induction fuel generalizing pos m with
  | zero => rfl
  | succ fuel ih =>
    have next := add_pos_fits small node (show -2 ^ 31 ≤ 1 by decide) (by decide)
    rw [setTokens, ShmQueue.setTokens, next, Option.bind_some, ih (next_is_node small node)]

/-- An accepted length needs at most as many nodes as it has bytes. -/
theorem needed_small {N ns : Nat} (shape : Shape queue N ns) {datalen : Int} (low : 1 ≤ datalen)
    (high : datalen ≤ MAX_SQ_DATA_LENGTH) :
    0 ≤ numNeededNodes queue datalen ∧ numNeededNodes queue datalen ≤ 65536 := by
  have wide := shape.wide
  unfold MAX_SQ_DATA_LENGTH at high
  have room : datalen.toNat + 16 ≤ datalen.toNat * ns := by
    have := Nat.mul_le_mul_left datalen.toNat (show 17 ≤ ns from wide)
    omega
  have few := need_le wide room
  rw [needed_of_int shape (by omega) (by omega)]
  omega

theorem needed_int (datalen : Int) : -2 ^ 31 ≤ numNeededNodes queue datalen := by
  have low := @Int.le_bmod
    ((toSize (toSize datalen + nodeHeadSize + nodeSize queue - 1) / nodeSize queue : Nat) : Int)
    (2 ^ 32) (by decide)
  unfold numNeededNodes toInt
  omega

theorem reserve_fits (small : Small queue) (head : IsNode queue queue.head_pos)
    (tail : IsNode queue queue.tail_pos) {datalen : Int}
    (low : 0 ≤ numNeededNodes queue datalen) (high : numNeededNodes queue datalen ≤ 65536) :
    reserve queue datalen = some (ShmQueue.reserve queue datalen) := by
  obtain ⟨empty, _, bound⟩ := empty_nodes_fits small head tail
  unfold reserve ShmQueue.reserve emptyNodes ShmQueue.emptyNodes
  generalize numNeededNodes queue datalen = nr_nodes at *
  have wanted : int (nr_nodes + RESERVE_BLOCK_COUNT) = some (nr_nodes + RESERVE_BLOCK_COUNT) := by
    unfold RESERVE_BLOCK_COUNT
    exact int_of_bounds (by omega) (by omega)
  have before : int (queue.head_pos - 1) = some (queue.head_pos - 1) := by
    obtain ⟨_, _⟩ := small
    obtain ⟨_, _⟩ := head
    exact int_of_bounds (by omega) (by omega)
  dsimp only
  rw [empty, Option.bind_eq_bind, Option.bind_some, wanted, Option.bind_some]
  split
  · rfl
  next room =>
    have fits : nr_nodes ≤ queue.ele_count := by
      unfold RESERVE_BLOCK_COUNT at room
      omega
    have count := small.2
    rw [add_pos_fits small tail (by omega) (by omega), Option.bind_some]
    split
    · rw [before, Option.bind_some]
      split <;> rfl
    · rfl

theorem publish_fits (small : Small queue) {r : Reservation} (node : IsNode queue r.old_tail)
    (now : Timeval) (data : Mem UInt8) (datalen : Int) :
    publish queue r now data datalen = ShmQueue.publish queue r now data datalen := by
  unfold publish ShmQueue.publish
  rw [set_tokens_fits small _ _ _ node]

theorem scan_fits (small : Small queue) (tail : IsNode queue queue.tail_pos) (rw_conflict : Int)
    (fuel : Nat) {head : Int} (node : IsNode queue head) :
    scan queue rw_conflict fuel head = ShmQueue.scan queue rw_conflict fuel head := by
  induction fuel generalizing head with
  | zero => rfl
  | succ fuel ih =>
    have next := add_pos_fits small node (show -2 ^ 31 ≤ 1 by decide) (by decide)
    have later := ih (next_is_node small node)
    obtain ⟨used, bound⟩ := used_nodes_fits small node tail
    unfold scan ShmQueue.scan
    dsimp only
    rw [next, used, Option.bind_some, Option.bind_some, later]
    split
    · rfl
    split
    · rfl
    split
    · rfl
    next enough =>
      have count := small.2
      rw [add_pos_fits small node (needed_int _) (by omega), Option.map_some]

end Sums

theorem reserved_tail {queue : SqHead} {datalen : Int} {r : Reservation}
    (reserved : ShmQueue.reserve queue datalen = some r) : r.old_tail = queue.tail_pos := by
  unfold ShmQueue.reserve at reserved
  dsimp only at reserved
  split at reserved
  · cases reserved
  split at reserved
  · split at reserved
    · cases reserved
    · cases reserved
      rfl
  · cases reserved
    rfl

section Calls

variable {sq : Handle}

/-- What a claim holds on to begins at a node. -/
def ClaimNode (queue : SqHead) : Claim → Prop
  | .noData => True
  | .skipped old_head _ => IsNode queue old_head
  | .message old_head _ _ _ => IsNode queue old_head

theorem claim_fits (small : Small sq.head) (head : IsNode sq.head sq.head.head_pos)
    (tail : IsNode sq.head sq.head.tail_pos) : claim sq = ShmQueue.claim sq := by
  unfold claim ShmQueue.claim
  dsimp only
  rewrite [scan_fits small tail _ _ head]
  cases ShmQueue.scan sq.head sq.rw_conflict (turn sq.head) sq.head.head_pos with
  | none => rfl
  | some scanned => cases scanned <;> rfl

theorem claim_node (head : IsNode sq.head sq.head.head_pos) {sq' : Handle} {c : Claim}
    (done : ShmQueue.claim sq = some (sq', c)) :
    sq'.head.ele_count = sq.head.ele_count ∧ ClaimNode sq.head c := by
  obtain ⟨scanned, _, result⟩ := Option.map_eq_some_iff.mp done
  cases scanned with
  | drained pos =>
    dsimp only at result
    split at result
    · cases result
      exact ⟨rfl, head⟩
    · cases result
      exact ⟨rfl, trivial⟩
  | busy =>
    cases result
    exact ⟨rfl, trivial⟩
  | found pos datalen new_head =>
    cases result
    exact ⟨rfl, head⟩

theorem release_fits (small : Small sq.head) {old_head : Int} (node : IsNode sq.head old_head)
    (new_head : Int) : release sq old_head new_head = ShmQueue.release sq old_head new_head := by
  unfold release ShmQueue.release
  rw [set_tokens_fits small _ _ _ node]

theorem finish_fits (small : Small sq.head) (buf_sz : Int) {c : Claim}
    (node : ClaimNode sq.head c) : finish sq buf_sz c = ShmQueue.finish sq buf_sz c := by
  cases c with
  | noData => rfl
  | skipped old_head new_head => simp only [finish, ShmQueue.finish, release_fits small node]
  | message old_head head new_head datalen =>
    simp only [finish, ShmQueue.finish, release_fits small node]

theorem sq_get_fits (small : Small sq.head) (head : IsNode sq.head sq.head.head_pos)
    (tail : IsNode sq.head sq.head.tail_pos) (buf_sz : Int) :
    sqGet sq buf_sz = ShmQueue.sqGet sq buf_sz := by
  unfold sqGet ShmQueue.sqGet
  rw [claim_fits small head tail]
  split
  · rfl
  apply Option.bind_congr
  rintro ⟨sq', c⟩ done
  obtain ⟨count, node⟩ := claim_node head done
  unfold Small IsNode ClaimNode at *
  exact finish_fits (by unfold Small; rw [count]; exact small) buf_sz
    (by unfold ClaimNode IsNode; rw [count]; exact node)

theorem sq_put_fits (few : ∀ {datalen}, 1 ≤ datalen → datalen ≤ MAX_SQ_DATA_LENGTH →
      0 ≤ numNeededNodes sq.head datalen ∧ numNeededNodes sq.head datalen ≤ 65536)
    (small : Small sq.head) (head : IsNode sq.head sq.head.head_pos)
    (tail : IsNode sq.head sq.head.tail_pos) (now : Timeval) (data : Mem UInt8) (datalen : Int) :
    sqPut sq now data datalen = ShmQueue.sqPut sq now data datalen := by
  unfold sqPut ShmQueue.sqPut
  split
  · rfl
  next good =>
    obtain ⟨low, high⟩ := few (show 1 ≤ datalen by omega) (by omega)
    rw [reserve_fits small head tail low high, Option.bind_some]
    cases reserved : ShmQueue.reserve sq.head datalen with
    | none => rfl
    | some r =>
      have old : r.old_tail = sq.head.tail_pos := reserved_tail reserved
      dsimp only
      have node : IsNode { sq.head with tail_pos := r.new_tail } r.old_tail := by
        rw [old]
        exact tail
      have same := @publish_fits { sq.head with tail_pos := r.new_tail } small r node now data
        datalen
      rw [same]

end Calls

end UC.ShmQueue.Ints
