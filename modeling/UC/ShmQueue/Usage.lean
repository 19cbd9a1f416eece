import UC.Lib.Histories
import UC.ShmQueue.Room

/- sq_get_usage, in the 32-bit int of the source. The positions are those that puts and gets
   leave behind. -/
namespace UC.ShmQueue
open UC.Memory UC.NodeRing UC.Histories

/-- The result of an operation on ints; none stands for an overflow. -/
def int32 (x : Int) : Option Int := if -2 ^ 31 ≤ x ∧ x < 2 ^ 31 then some x else none

def usedNodes32 (queue : SqHead) : Option Int := do
  let sum ← int32 (queue.head_pos + queue.ele_count)
  let distance ← int32 (sum - queue.tail_pos)
  let modulus ← int32 (queue.ele_count + 1)
  let empty ← int32 (distance.tmod modulus)
  int32 (queue.ele_count - empty)

def sqGetUsage (queue : SqHead) : Option Int :=
  if queue.ele_count = 0 then some 0
  else do
    let used ← usedNodes32 queue
    let percent ← int32 (used * 100)
    int32 (percent.tdiv queue.ele_count)

/-- "Returns a number from 0 to 99". -/
def InDocumentedRange (queue : SqHead) : Prop := ∃ u, sqGetUsage queue = some u ∧ 0 ≤ u ∧ u ≤ 99

/-- Nodes from head_pos on to tail_pos, going round. -/
def live (queue : SqHead) : Int := (queue.tail_pos - queue.head_pos) % (queue.ele_count + 1)

section Arithmetic

variable {queue : SqHead}

theorem int32_iff {x y : Int} : int32 x = some y ↔ x = y ∧ -2 ^ 31 ≤ x ∧ x < 2 ^ 31 := by
  unfold int32
  split
  next fits =>
    rw [and_iff_left fits]
    exact Option.some_inj
  next misfits =>
    simp only [reduceCtorEq, false_iff]
    exact fun fits => misfits fits.2

structure Inside (queue : SqHead) : Prop where
  count : 0 < queue.ele_count
  count_int : queue.ele_count < 2 ^ 31
  head_low : 0 ≤ queue.head_pos
  head_high : queue.head_pos ≤ queue.ele_count
  tail_low : 0 ≤ queue.tail_pos
  tail_high : queue.tail_pos ≤ queue.ele_count

theorem live_bounds (inside : Inside queue) : 0 ≤ live queue ∧ live queue ≤ queue.ele_count := by
  obtain ⟨count, _, _, _, _, _⟩ := inside
  have low := Int.emod_nonneg (queue.tail_pos - queue.head_pos)
    (show queue.ele_count + 1 ≠ 0 by omega)
  have high := Int.emod_lt_of_pos (queue.tail_pos - queue.head_pos)
    (show 0 < queue.ele_count + 1 by omega)
  unfold live
  omega

theorem used_is_live (inside : Inside queue) :
    queue.ele_count - (queue.head_pos + queue.ele_count - queue.tail_pos).tmod
      (queue.ele_count + 1) = live queue := by
  obtain ⟨count, _, head_low, head_high, tail_low, tail_high⟩ := inside
  unfold live
  by_cases turned : queue.tail_pos < queue.head_pos
  · have one_turn : queue.tail_pos - queue.head_pos + (queue.ele_count + 1) =
        queue.ele_count - (queue.head_pos - queue.tail_pos - 1) := by omega
    have distance : queue.head_pos + queue.ele_count - queue.tail_pos =
        queue.head_pos - queue.tail_pos - 1 + (queue.ele_count + 1) := by omega
    rw [← Int.add_emod_right, one_turn, Int.emod_eq_of_lt (by omega) (by omega),
      Int.tmod_eq_emod_of_nonneg (by omega), distance, Int.add_emod_right,
      Int.emod_eq_of_lt (by omega) (by omega)]
  · rw [Int.tmod_eq_of_lt (by omega) (by omega), Int.emod_eq_of_lt (by omega) (by omega)]
    omega

theorem used_nodes32_iff (inside : Inside queue) {u : Int} :
    usedNodes32 queue = some u ↔ u = live queue ∧
      queue.head_pos + queue.ele_count < 2 ^ 31 ∧ queue.ele_count + 1 < 2 ^ 31 := by
  have used := used_is_live inside
  have bounds := live_bounds inside
  obtain ⟨count, count_int, head_low, head_high, tail_low, tail_high⟩ := inside
  simp only [usedNodes32, Option.bind_eq_bind, Option.bind_eq_some_iff, int32_iff]
  constructor
  · rintro ⟨_, ⟨rfl, sum_fits⟩, _, ⟨rfl, _⟩, _, ⟨rfl, modulus_fits⟩, _, ⟨rfl, _⟩, rfl, _⟩
    exact ⟨used, sum_fits.2, modulus_fits.2⟩
  · rintro ⟨rfl, sum_fits, modulus_fits⟩
    refine ⟨_, ⟨rfl, by omega, sum_fits⟩, _, ⟨rfl, by omega, by omega⟩, _,
      ⟨rfl, by omega, modulus_fits⟩, _, ⟨rfl, by omega, by omega⟩, used, by omega, by omega⟩

theorem percent_range {k count : Int} (low : 0 ≤ k) (pos : 0 < count) :
    0 ≤ (k * 100).tdiv count ∧ ((k * 100).tdiv count ≤ 99 ↔ k < count) := by
  rw [Int.tdiv_eq_ediv_of_nonneg (by omega)]
  refine ⟨Int.ediv_nonneg (by omega) (by omega), ?_⟩
  rw [← Int.lt_add_one_iff, Int.ediv_lt_iff_lt_mul pos]
  omega

theorem usage_in_range_iff (inside : Inside queue) :
    InDocumentedRange queue ↔
      queue.head_pos + queue.ele_count < 2 ^ 31 ∧ queue.ele_count + 1 < 2 ^ 31 ∧
      live queue * 100 < 2 ^ 31 ∧ live queue < queue.ele_count := by
  have bounds := live_bounds inside
  obtain ⟨low, below⟩ := percent_range bounds.1 inside.count
  have smaller := Int.tdiv_le_self queue.ele_count (show 0 ≤ live queue * 100 by omega)
  unfold InDocumentedRange sqGetUsage
  rw [if_neg inside.count.ne']
  simp only [Option.bind_eq_bind, Option.bind_eq_some_iff, used_nodes32_iff inside, int32_iff]
  constructor
  · rintro ⟨u, ⟨_, ⟨rfl, sum_fits, modulus_fits⟩, _, ⟨rfl, percent_fits⟩, rfl, _⟩, _, high⟩
    exact ⟨sum_fits, modulus_fits, percent_fits.2, below.mp high⟩
  · rintro ⟨sum_fits, modulus_fits, percent_fits, room⟩
    exact ⟨_, ⟨_, ⟨rfl, sum_fits, modulus_fits⟩, _, ⟨rfl, by omega, percent_fits⟩, rfl, by omega,
      by omega⟩, low, below.mpr room⟩

end Arithmetic

/-- A put that is accepted, turns round and ends right before head_pos. -/
def Fills (queue : SqHead) : Call → Prop
  | .put _ _ datalen =>
    (1 ≤ datalen ∧ datalen ≤ MAX_SQ_DATA_LENGTH) ∧ (reserve queue datalen).isSome ∧
      Wraps queue datalen ∧ queue.head_pos - 1 = numNeededNodes queue datalen
  | .get _ => False

section Runs

variable {N ns h t : Nat} {s : Caller}

theorem between_inside (between : Between N ns s h t) (int_count : (N : Int) ≤ 2 ^ 31) :
    Inside s.sq.head := by
  have count := between.shape.count
  have reserve := between.shape.reserve
  have head := Nat.mod_lt h (show N > 0 by omega)
  have tail := Nat.mod_lt t (show N > 0 by omega)
  constructor
  · omega
  · omega
  · rw [between.head_at]
    exact Int.natCast_nonneg _
  · rw [between.head_at]
    omega
  · rw [between.tail_at]
    exact Int.natCast_nonneg _
  · rw [between.tail_at]
    omega

theorem live_between (between : Between N ns s h t) (int_count : (N : Int) ≤ 2 ^ 31) :
    live s.sq.head = (t - h : Nat) := by
  rw [← used_is_live (between_inside between int_count), between.head_at]
  exact used_nodes between.shape (layout_le between.stored) between.near between.tail_at

/-- In a ring whose percentages do not overflow only a full ring is reported wrongly. -/
theorem range_between (between : Between N ns s h t) (small : ((N : Int) - 1) * 100 < 2 ^ 31) :
    InDocumentedRange s.sq.head ↔ t + 1 < h + N := by
  have inside := between_inside between (by omega)
  have count := between.shape.count
  have le := layout_le between.stored
  have near := between.near
  have head := inside.head_high
  rw [usage_in_range_iff inside, live_between between (by omega)]
  constructor
  · rintro ⟨_, _, _, room⟩
    omega
  · intro room
    refine ⟨?_, ?_, ?_, ?_⟩ <;> omega

theorem put_fills_iff (between : Between N ns s h t) {datalen : Int} {p : Nat} {new_tail : Int}
    (low : 1 ≤ datalen) (high : datalen ≤ MAX_SQ_DATA_LENGTH)
    (room : p + need ns datalen.toNat < h + N)
    (reserved : reserve s.sq.head datalen = some ⟨(p % N : Nat), (t % N : Nat), new_tail⟩)
    (placed : Placed N t p (need ns datalen.toNat)) (now : Timeval) (data : Mem UInt8) :
    p + need ns datalen.toNat + 1 < h + N ↔ ¬ Fills s.sq.head (.put now data datalen) := by
  obtain ⟨lap, straight⟩ := put_place between low high room reserved placed
  have needed := num_needed between.shape (Int.le_trans (by decide) low) high
  unfold Fills
  dsimp only
  rw [reserved, needed, between.head_at, and_iff_right ⟨low, high⟩,
    and_iff_right Option.isSome_some]
  by_cases turned : Wraps s.sq.head datalen
  · have turn := lap turned
    rw [and_iff_right turned]
    omega
  · have gap := straight turned
    unfold RESERVE_BLOCK_COUNT at gap
    refine iff_of_true ?_ fun fills => turned fills.1
    omega

theorem call_fills_iff (between : Between N ns s h t) (room : t + 1 < h + N) (c : Call) :
    ∃ s' h' t', perform s c = some s' ∧ Between N ns s' h' t' ∧
      (t' + 1 < h' + N ↔ ¬ Fills s.sq.head c) := by
  cases c with
  | get buf_sz =>
    obtain ⟨s', h', done, effect⟩ := get_effect between buf_sz
    refine ⟨s', h', t, done, effect_keeps between effect, iff_of_true ?_ not_false⟩
    cases effect with
    | nothing => exact room
    | taken buf_sz msg later p m front legal fits entry behind ring pending cleared rest =>
      have after := entry.placed.after
      omega
    | dropped buf_sz msg later p front legal short entry behind ring pending =>
      have after := entry.placed.after
      omega
  | put now data datalen =>
    obtain ⟨sq', ret, s', t', result, done, _, effect, accepted⟩ :=
      put_effect between now data datalen
    refine ⟨s', h, t', done, effect_keeps between effect, ?_⟩
    cases effect with
    | put now data datalen p m low high near reserved ring pending entry rest =>
      exact put_fills_iff between low high near reserved entry.placed now data
    | nothing ring pending legal =>
      refine iff_of_true room ?_
      rintro ⟨⟨low, high⟩, some_room, _⟩
      obtain ⟨r, reserved⟩ := Option.isSome_iff_exists.mp some_room
      obtain ⟨head, _, published, _⟩ := put_published between now data low high reserved
      rw [published] at result
      cases result
      exact absurd (accepted rfl) (lt_irrefl t)

theorem perform_all_play (cs : List Call) (s : Caller) :
    performAll cs s = Histories.play perform cs s := by
  induction cs generalizing s with
  | nil => rfl
  | cons c rest ih => simp only [performAll, Histories.play, ih]

theorem in_range_always_iff (between : Between N ns s h t)
    (small : ((N : Int) - 1) * 100 < 2 ^ 31) (room : t + 1 < h + N) (cs : List Call) :
    Always perform (fun s => InDocumentedRange s.sq.head) cs s ↔
      Lawful perform (fun s c => ¬ Fills s.sq.head c) cs s := by
  apply @always_iff_lawful _ _ _ fun s => ∃ h t, Between N ns s h t ∧ t + 1 < h + N
  · rintro s ⟨h, t, between, room⟩
    exact (range_between between small).mpr room
  · rintro s c s' ⟨h, t, between, room⟩ legal done
    obtain ⟨after, h', t', called, kept, fills⟩ := call_fills_iff between room c
    obtain rfl := Option.some.inj (done.symm.trans called)
    exact ⟨h', t', kept, fills.mpr legal⟩
  · rintro s c s' ⟨h, t, between, room⟩ illegal done range
    obtain ⟨after, h', t', called, kept, fills⟩ := call_fills_iff between room c
    obtain rfl := Option.some.inj (done.symm.trans called)
    exact illegal (fills.mp ((range_between kept small).mp range))
  · exact ⟨h, t, between, room⟩
  · obtain ⟨_, _, _, run, _⟩ := perform_all_between between cs
    rw [← perform_all_play, run]
    rfl

end Runs

/-- With positions inside the ring, as any calls at all leave them, sq_get_usage returns without
    overflow a number from 0 to 99 just when its sum and its product fit an int and the ring is
    not full. In a ring small enough for both, that is so all along the runs without a put that
    fills the ring. -/
theorem usage_in_documented_range_iff {sq : Handle} (fresh : Fresh sq)
    (int_count : sq.head.ele_count < 2 ^ 31) (cs : List Call) :
    (∀ queue, Inside queue →
      (InDocumentedRange queue ↔
        queue.head_pos + queue.ele_count < 2 ^ 31 ∧ queue.ele_count + 1 < 2 ^ 31 ∧
        live queue * 100 < 2 ^ 31 ∧ live queue < queue.ele_count)) ∧
    (∃ s, performAll cs ⟨sq, []⟩ = some s ∧ Inside s.sq.head) ∧
    (sq.head.ele_count * 100 < 2 ^ 31 →
      (Always perform (fun s => InDocumentedRange s.sq.head) cs ⟨sq, []⟩ ↔
        Lawful perform (fun s c => ¬ Fills s.sq.head c) cs ⟨sq, []⟩)) := by
  have start := between_start fresh
  have count := fresh.count
  unfold RESERVE_BLOCK_COUNT at count
  refine ⟨fun _ inside => usage_in_range_iff inside, ?_, ?_⟩
  · obtain ⟨s, h, t, run, between⟩ := perform_all_between start cs
    exact ⟨s, run, between_inside between (by omega)⟩
  · intro small
    exact in_range_always_iff start (by omega) (by omega) cs

theorem usage_of_small_queue :
    (∀ queue, Inside queue →
      (InDocumentedRange queue ↔
        queue.head_pos + queue.ele_count < 2 ^ 31 ∧ queue.ele_count + 1 < 2 ^ 31 ∧
        live queue * 100 < 2 ^ 31 ∧ live queue < queue.ele_count)) ∧
    (∃ s, performAll [.put ⟨0, 0⟩ (fun _ => 1) 40, .get 8] ⟨smallQueue, []⟩ = some s ∧
      Inside s.sq.head) ∧
    (Always perform (fun s => InDocumentedRange s.sq.head)
        [.put ⟨0, 0⟩ (fun _ => 1) 40, .get 8] ⟨smallQueue, []⟩ ↔
      Lawful perform (fun s c => ¬ Fills s.sq.head c)
        [.put ⟨0, 0⟩ (fun _ => 1) 40, .get 8] ⟨smallQueue, []⟩) := by
  obtain ⟨ranges, inside, runs⟩ := usage_in_documented_range_iff small_queue_fresh (by decide)
    [.put ⟨0, 0⟩ (fun _ => 1) 40, .get 8]
  exact ⟨ranges, inside, runs (by decide)⟩

/-- The last put fills the ring, and the usage is 100. -/
theorem full_queue_reports_hundred :
    sqCreate 1 8 201 = .ok smallQueue ∧
    ∃ s, performAll [.put ⟨0, 0⟩ (fun _ => 1) 2384, .get 65536, .put ⟨0, 0⟩ (fun _ => 2) 32,
        .get 65536, .put ⟨0, 0⟩ (fun _ => 3) 2408] ⟨smallQueue, []⟩ = some s ∧
      sqGetUsage s.sq.head = some 100 ∧ ¬ InDocumentedRange s.sq.head := by
  have ends : (performAll [.put ⟨0, 0⟩ (fun _ => 1) 2384, .get 65536,
      .put ⟨0, 0⟩ (fun _ => 2) 32, .get 65536, .put ⟨0, 0⟩ (fun _ => 3) 2408]
      ⟨smallQueue, []⟩).any (fun s => sqGetUsage s.sq.head = some 100) = true := by
    decide +kernel
  obtain ⟨s, run, last⟩ := (Option.any_eq_true _ _).mp ends
  have full := of_decide_eq_true last
  refine ⟨rfl, s, run, full, ?_⟩
  rintro ⟨u, usage, _, high⟩
  rw [full] at usage
  cases usage
  exact absurd high (by decide)

/-- Even a fresh queue is too large when its modulus is no int. -/
example {sq : Handle} (created : sqCreate 1 8 (2 ^ 31 - 1) = .ok sq) :
    sqGetUsage sq.head = none := by
  cases created
  rfl

end UC.ShmQueue
