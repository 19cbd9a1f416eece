import UC.ShmQueue.FreeNodes

/- sq_get on arbitrary node contents: what it can do with a damaged queue, and the lengths
   read from the nodes that its checks let through. -/
namespace UC.ShmQueue
open UC.Memory UC.Words UC.NodeRing

/-- The first byte and the length of the memcpy of sq_get, if it gets there. -/
def copied (sq : Handle) (buf_sz : Int) : Option (Nat × Nat) :=
  (Ints.claim sq).bind fun
    | (_, .message _ head _ datalen) =>
      if datalen > buf_sz then none
      else some (nodeAt sq.head head + nodeHeadSize, toSize datalen)
    | _ => none

/-- The call returns with head_pos moved at most to tail_pos, and what it copies has a length
    from 1 to buf_sz and lies in the ele_count + 1 nodes. -/
structure Survives (sq : Handle) (buf_sz : Int) : Prop where
  returns : ∃ sq' got, Ints.sqGet sq buf_sz = some (sq', got) ∧
    (sq'.head.head_pos = sq.head.tail_pos ∨
      InRange sq.head.head_pos sq.head.tail_pos sq'.head.head_pos)
  copy : ∀ first len, copied sq buf_sz = some (first, len) →
    1 ≤ len ∧ (len : Int) ≤ buf_sz ∧
      first + len ≤ (sq.head.ele_count + 1).toNat * nodeSize sq.head

/-- A node that passes for a message: it has the token and its needed nodes are in use. -/
def Passes (queue : SqHead) (pos : Int) : Prop :=
  startToken queue.nodes (nodeAt queue pos) = TOKEN_HAS_DATA ∧
    numNeededNodes queue (dataLen queue.nodes (nodeAt queue pos)) ≤ usedNodes2 queue pos

/-- A node that the reader still waits for. -/
def Blocks (sq : Handle) (pos : Int) : Prop :=
  startToken sq.head.nodes (nodeAt sq.head pos) = TOKEN_NO_DATA ∧
    sq.rw_conflict < SQ_MAX_CONFLICT_TRIES

/-- The walk from head_pos meets node pos before tail_pos and before any other node that
    passes or blocks. -/
def FirstToPass (sq : Handle) (pos : Int) : Prop :=
  ∃ k : Nat, (k : Int) < usedNodes sq.head ∧ pos = addPos sq.head sq.head.head_pos k ∧
    Passes sq.head pos ∧ ∀ j < k, ¬ Passes sq.head (addPos sq.head sq.head.head_pos j) ∧
      ¬ Blocks sq (addPos sq.head sq.head.head_pos j)

/-- A positive length that, where it fits the buffer, ends in the last node at the latest. -/
def LengthSound (queue : SqHead) (buf_sz pos : Int) : Prop :=
  let datalen := dataLen queue.nodes (nodeAt queue pos)
  1 ≤ datalen ∧ (datalen ≤ buf_sz →
    pos + numNeededNodes queue datalen ≤ queue.ele_count + 1)

section Walk

variable {sq : Handle} {N ns : Nat}

/-- How the walk from position v ends at position w. -/
inductive WalkEnd (sq : Handle) (N t w : Nat) : Option Scan → Prop
  | drained (here : w = t) : WalkEnd sq N t w (some (.drained (t % N : Nat)))
  | busy (before : w < t) (blocks : Blocks sq (w % N : Nat)) : WalkEnd sq N t w (some .busy)
  | found (before : w < t) (passes : Passes sq.head (w % N : Nat)) :
      WalkEnd sq N t w (some (.found (w % N : Nat)
        (dataLen sq.head.nodes (nodeAt sq.head (w % N : Nat)))
        (addPos sq.head (w % N : Nat)
          (numNeededNodes sq.head (dataLen sq.head.nodes (nodeAt sq.head (w % N : Nat)))))))

theorem walk_end_reason {t w : Nat} {result : Option Scan} (ends : WalkEnd sq N t w result) :
    w = t ∨ Blocks sq (w % N : Nat) ∨ Passes sq.head (w % N : Nat) := by
  cases ends with
  | drained here => exact .inl here
  | busy _ blocks => exact .inr (.inl blocks)
  | found _ passes => exact .inr (.inr passes)

theorem walk_ends (shape : Shape sq.head N ns) {t : Nat}
    (tail_at : sq.head.tail_pos = (t % N : Nat)) (d : Nat) {v fuel : Nat} (rest : v + d = t)
    (near : d < N) (enough : d < fuel) :
    ∃ w, v ≤ w ∧ w ≤ t ∧
      (∀ u, v ≤ u → u < w → ¬ Passes sq.head (u % N : Nat) ∧ ¬ Blocks sq (u % N : Nat)) ∧
      WalkEnd sq N t w (scan sq.head sq.rw_conflict fuel (v % N : Nat)) := by
  induction d generalizing v fuel with
  | zero =>
    obtain ⟨fuel, rfl⟩ := Nat.exists_eq_succ_of_ne_zero (show fuel ≠ 0 by omega)
    obtain rfl : v = t := rest
    refine ⟨v, Nat.le_refl v, Nat.le_refl v, fun u lower upper => by omega, ?_⟩
    rw [scan, if_pos tail_at]
    exact .drained rfl
  | succ d ih =>
    obtain ⟨fuel, rfl⟩ := Nat.exists_eq_succ_of_ne_zero (show fuel ≠ 0 by omega)
    have live : ¬ sq.head.tail_pos = (v % N : Nat) := by
      rw [tail_at]
      exact_mod_cast (node_distinct (show v < t by omega) (by omega)).symm
    have walk_on : ¬ Passes sq.head (v % N : Nat) → ¬ Blocks sq (v % N : Nat) →
        scan sq.head sq.rw_conflict (fuel + 1) (v % N : Nat) =
          scan sq.head sq.rw_conflict fuel ((v + 1) % N : Nat) := by
      intro notPasses notBlocks
      rw [scan, if_neg live, next_pos shape]
      dsimp only
      split
      next token => exact if_neg notBlocks
      next token =>
        rw [if_pos]
        by_contra enough
        exact notPasses ⟨not_not.mp token, not_lt.mp enough⟩
    by_cases blocks : Blocks sq (v % N : Nat)
    · refine ⟨v, Nat.le_refl v, by omega, fun u lower upper => by omega, ?_⟩
      have other : startToken sq.head.nodes (nodeAt sq.head (v % N : Nat)) ≠ TOKEN_HAS_DATA := by
        rw [blocks.1]
        decide
      rw [scan, if_neg live]
      dsimp only
      rw [if_pos other, if_pos ⟨blocks.1, blocks.2⟩]
      exact .busy (by omega) blocks
    by_cases passes : Passes sq.head (v % N : Nat)
    · refine ⟨v, Nat.le_refl v, by omega, fun u lower upper => by omega, ?_⟩
      rw [scan, if_neg live]
      dsimp only
      rw [if_neg (not_not.mpr passes.1), if_neg (not_lt.mpr passes.2)]
      exact .found (by omega) passes
    · obtain ⟨w, lower, upper, before, ends⟩ :=
        @ih (v + 1) fuel (by omega) (by omega) (by omega)
      refine ⟨w, by omega, upper, ?_, ?_⟩
      · intro u from_v to_w
        rcases Nat.eq_or_lt_of_le from_v with here | later
        · rw [← here]
          exact ⟨passes, blocks⟩
        · exact before u later to_w
      · rw [walk_on passes blocks]
        exact ends

/-- A queue whose positions are in range, seen from head_pos as position h and tail_pos as t. -/
structure Placement (sq : Handle) (N ns h t : Nat) : Prop where
  shape : Shape sq.head N ns
  small : N ≤ 2 ^ 30
  head_at : sq.head.head_pos = (h % N : Nat)
  tail_at : sq.head.tail_pos = (t % N : Nat)
  order : h ≤ t
  near : t < h + N

theorem placement_of_bounds (size_pos : 0 < sq.head.ele_size) (size_int : sq.head.ele_size < 2 ^ 31)
    (count : RESERVE_BLOCK_COUNT < sq.head.ele_count) (small : sq.head.ele_count < 2 ^ 30)
    (head_low : 0 ≤ sq.head.head_pos) (head_high : sq.head.head_pos ≤ sq.head.ele_count)
    (tail_low : 0 ≤ sq.head.tail_pos) (tail_high : sq.head.tail_pos ≤ sq.head.ele_count) :
    ∃ h t, Placement sq (sq.head.ele_count.toNat + 1) (nodeSize sq.head) h t := by
  have shape := shape_of_bounds size_pos size_int count
  have few : sq.head.ele_count.toNat + 1 ≤ 2 ^ 30 := by omega
  generalize sq.head.ele_count.toNat + 1 = N at shape few
  have total := shape.count
  obtain ⟨t, lower, upper, tail_at⟩ :=
    position_of (N := N) sq.head.head_pos.toNat (i := sq.head.tail_pos.toNat) (by omega)
  refine ⟨sq.head.head_pos.toNat, t, shape, few, ?_, ?_, lower, upper⟩
  · rw [Nat.mod_eq_of_lt (by omega)]
    omega
  · rw [tail_at]
    omega

variable {h t : Nat}

theorem placed_ints (place : Placement sq N ns h t) :
    Ints.Small sq.head ∧ Ints.IsNode sq.head sq.head.head_pos ∧
      Ints.IsNode sq.head sq.head.tail_pos := by
  refine ⟨Ints.small_ring place.shape place.small, ?_, ?_⟩
  · rw [place.head_at]
    exact Ints.node_of_position place.shape h
  · rw [place.tail_at]
    exact Ints.node_of_position place.shape t

theorem placed_claim (place : Placement sq N ns h t) : Ints.claim sq = claim sq := by
  obtain ⟨few, head, tail⟩ := placed_ints place
  exact Ints.claim_fits few head tail

theorem placed_get (place : Placement sq N ns h t) (buf_sz : Int) :
    Ints.sqGet sq buf_sz = sqGet sq buf_sz := by
  obtain ⟨few, head, tail⟩ := placed_ints place
  exact Ints.sq_get_fits few head tail buf_sz

/-- The walk of the whole call, and that its end is the first node to pass, if it passes. -/
theorem get_walk (place : Placement sq N ns h t) :
    ∃ w, h ≤ w ∧ w ≤ t ∧
      WalkEnd sq N t w (scan sq.head sq.rw_conflict (turn sq.head) sq.head.head_pos) ∧
      ∀ pos, FirstToPass sq pos ↔ w < t ∧ Passes sq.head (w % N : Nat) ∧ pos = (w % N : Nat) := by
  have shape := place.shape
  have order := place.order
  have near := place.near
  obtain ⟨w, lower, upper, before, ends⟩ := @walk_ends _ _ _ shape _ place.tail_at (t - h) h
    (turn sq.head) (by omega) (by omega) (by rw [turn_eq shape]; omega)
  refine ⟨w, lower, upper, by rw [place.head_at]; exact ends, ?_⟩
  have used : usedNodes sq.head = ((t - h : Nat) : Int) := by
    rw [usedNodes, place.head_at]
    exact used_nodes shape order near place.tail_at
  intro pos
  unfold FirstToPass
  rw [used, place.head_at]
  constructor
  · rintro ⟨k, inside, here, passes, first⟩
    rw [add_pos shape] at here
    have same : w = h + k := by
      rcases Nat.lt_trichotomy w (h + k) with short | same | long
      · obtain ⟨notPasses, notBlocks⟩ := first (w - h) (by omega)
        rw [add_pos shape, Nat.add_sub_of_le lower] at notPasses notBlocks
        rcases walk_end_reason ends with here | blocks | passes
        · omega
        · exact absurd blocks notBlocks
        · exact absurd passes notPasses
      · exact same
      · rw [here] at passes
        exact absurd passes (before (h + k) (by omega) long).1
    rw [here, ← same] at passes
    exact ⟨by omega, passes, by rw [here, same]⟩
  · rintro ⟨inside, passes, here⟩
    refine ⟨w - h, by omega, ?_, here ▸ passes, ?_⟩
    · rw [add_pos shape, Nat.add_sub_of_le lower, here]
    · intro j less
      rw [add_pos shape]
      exact before (h + j) (by omega) (by omega)

theorem data_len_int (m : Mem UInt8) (node : Nat) :
    -2147483648 ≤ dataLen m node ∧ dataLen m node < 2147483648 := by
  unfold dataLen toInt
  have low := @Int.le_bmod (load32 m (node + 4)) (2 ^ 32) (by decide)
  have high := @Int.bmod_lt (load32 m (node + 4)) (2 ^ 32) (by decide)
  omega

theorem claim_found {head datalen new_head : Int}
    (walk : scan sq.head sq.rw_conflict (turn sq.head) sq.head.head_pos =
      some (.found head datalen new_head)) :
    claim sq = some ({ sq with head := { sq.head with head_pos := new_head } },
      .message sq.head.head_pos head new_head datalen) := by
  unfold claim
  dsimp only
  rw [walk]
  rfl

theorem claim_skipped {head : Int}
    (walk : scan sq.head sq.rw_conflict (turn sq.head) sq.head.head_pos = some (.drained head))
    (moved : head ≠ sq.head.head_pos) :
    claim sq = some ({ sq with head := { sq.head with head_pos := head } },
      .skipped sq.head.head_pos head) := by
  unfold claim
  dsimp only
  rw [walk, Option.map_some]
  dsimp only
  rw [if_pos moved]

theorem copied_message (place : Placement sq N ns h t) {claimed : Handle}
    {old_head head new_head datalen : Int} (buf_sz : Int)
    (taken : claim sq = some (claimed, .message old_head head new_head datalen)) :
    copied sq buf_sz = if datalen > buf_sz then none
      else some (nodeAt sq.head head + nodeHeadSize, toSize datalen) := by
  rw [copied, placed_claim place, taken]
  rfl

theorem copied_without_message (place : Placement sq N ns h t) {c : Claim} {claimed : Handle}
    {buf_sz : Int} (taken : claim sq = some (claimed, c))
    (none_there : ∀ a b d e, c ≠ .message a b d e) :
    copied sq buf_sz = none := by
  rw [copied, placed_claim place, taken]
  cases c with
  | message a b d e => exact absurd rfl (none_there a b d e)
  | noData => rfl
  | skipped => rfl

theorem survives_without_message (place : Placement sq N ns h t) {buf_sz : Int}
    (legal : 1 ≤ buf_sz) {w : Nat} (lower : h ≤ w) {scanned : Scan}
    (walk : scan sq.head sq.rw_conflict (turn sq.head) sq.head.head_pos = some scanned)
    (ends : WalkEnd sq N t w (some scanned)) (fails : ¬ (w < t ∧ Passes sq.head (w % N : Nat))) :
    Survives sq buf_sz := by
  have shape := place.shape
  cases ends with
  | drained here =>
    by_cases empty : t = h
    · have same : sq.head.tail_pos = sq.head.head_pos := by
        rw [place.tail_at, place.head_at, empty]
      have taken := claim_drained shape same
      constructor
      · exact ⟨_, _, (placed_get place buf_sz).trans (get_run legal taken rfl), .inl same.symm⟩
      · intro first len copy
        rw [copied_without_message place taken fun _ _ _ _ => Claim.noConfusion] at copy
        cases copy
    · have order := place.order
      have moved : ((t % N : Nat) : Int) ≠ sq.head.head_pos := by
        rw [place.head_at]
        exact_mod_cast (node_distinct (show h < t by omega) place.near).symm
      have taken := claim_skipped walk moved
      have skipped : Shape { sq.head with head_pos := ((t % N : Nat) : Int) } N ns :=
        shape_of_counts shape rfl rfl
      obtain ⟨m, released, _⟩ :=
        @release_spec N ns ⟨_, sq.rw_conflict, sq.errmsg⟩ skipped h t order place.near
      have finished : finish ⟨{ sq.head with head_pos := ((t % N : Nat) : Int) },
          sq.rw_conflict, sq.errmsg⟩ buf_sz (.skipped sq.head.head_pos (t % N : Nat)) =
            some (⟨{ sq.head with head_pos := ((t % N : Nat) : Int), nodes := m }, 0,
              sq.errmsg⟩, ⟨0, [], none⟩) := by
        rw [finish, place.head_at, released]
        rfl
      constructor
      · have done := (placed_get place buf_sz).trans (get_run legal taken finished)
        exact ⟨_, _, done, .inl place.tail_at.symm⟩
      · intro first len copy
        rw [copied_without_message place taken fun _ _ _ _ => Claim.noConfusion] at copy
        cases copy
  | busy before blocks =>
    have taken := claim_busy walk
    constructor
    · refine ⟨_, _, (placed_get place buf_sz).trans (get_run legal taken rfl), .inr ?_⟩
      change InRange sq.head.head_pos sq.head.tail_pos sq.head.head_pos
      rw [place.head_at, place.tail_at]
      exact in_range (Nat.le_refl h) (by omega) place.near
    · intro first len copy
      rw [copied_without_message place taken fun _ _ _ _ => Claim.noConfusion] at copy
      cases copy
  | found before passes => exact absurd ⟨before, passes⟩ fails

theorem message_returns (place : Placement sq N ns h t) {buf_sz : Int} (legal : 1 ≤ buf_sz)
    {w n : Nat} {datalen : Int} (lower : h ≤ w) (some_node : 0 < n) (room : w + n ≤ t)
    (taken : claim sq = some ({ sq with head := { sq.head with head_pos := ((w + n) % N : Nat) } },
      .message sq.head.head_pos (w % N : Nat) ((w + n) % N : Nat) datalen)) :
    ∃ sq' got, Ints.sqGet sq buf_sz = some (sq', got) ∧
      sq'.head.head_pos = ((w + n) % N : Nat) := by
  have near := place.near
  by_cases short : buf_sz < datalen
  · obtain ⟨text, got, finished⟩ := finish_short
      { sq with head := { sq.head with head_pos := ((w + n) % N : Nat) } }
      sq.head.head_pos (w % N : Nat) ((w + n) % N : Nat) short
    exact ⟨_, _, (placed_get place buf_sz).trans (get_run legal taken finished), rfl⟩
  · have moved : Shape { sq.head with head_pos := ((w + n) % N : Nat) } N ns :=
      shape_of_counts place.shape rfl rfl
    obtain ⟨m, released, _⟩ := @release_spec N ns ⟨_, sq.rw_conflict, sq.errmsg⟩ moved h (w + n)
      (by omega) (by omega)
    rw [← place.head_at] at released
    obtain ⟨got, finished⟩ := finish_released (not_lt.mp short) released
    exact ⟨_, got, (placed_get place buf_sz).trans (get_run legal taken finished), rfl⟩

theorem range_of_position (place : Placement sq N ns h t) {v : Nat} (lower : h ≤ v)
    (upper : v ≤ t) : ((v % N : Nat) : Int) = sq.head.tail_pos ∨
      InRange sq.head.head_pos sq.head.tail_pos (v % N : Nat) := by
  rcases Nat.eq_or_lt_of_le upper with ends | inside
  · left
    rw [place.tail_at, ends]
  · right
    rw [place.head_at, place.tail_at]
    exact in_range lower inside place.near

theorem survives_message (place : Placement sq N ns h t) {buf_sz : Int} (legal : 1 ≤ buf_sz)
    {w : Nat} (lower : h ≤ w) (before : w < t) (passes : Passes sq.head (w % N : Nat))
    (walk : scan sq.head sq.rw_conflict (turn sq.head) sq.head.head_pos =
      some (.found (w % N : Nat) (dataLen sq.head.nodes (nodeAt sq.head (w % N : Nat)))
        (addPos sq.head (w % N : Nat)
          (numNeededNodes sq.head (dataLen sq.head.nodes (nodeAt sq.head (w % N : Nat)))))))
    (sound : LengthSound sq.head buf_sz (w % N : Nat)) : Survives sq buf_sz := by
  have shape := place.shape
  have near := place.near
  have wide := shape.wide
  have taken := claim_found walk
  obtain ⟨_, enough⟩ := passes
  obtain ⟨positive, inside⟩ := sound
  have int := (data_len_int sq.head.nodes (nodeAt sq.head (w % N : Nat))).2
  generalize dataLen sq.head.nodes (nodeAt sq.head (w % N : Nat)) = datalen at *
  have used := used_nodes shape (show w ≤ t by omega) (by omega) place.tail_at
  rw [used] at enough
  clear used
  rw [needed_of_int shape (by omega) int] at enough taken inside
  rw [add_pos shape] at taken
  have some_node := need_pos wide datalen.toNat
  have fits := need_fits wide datalen.toNat
  generalize need ns datalen.toNat = n at *
  obtain ⟨sq', got, done, head⟩ :=
    message_returns place legal lower some_node (show w + n ≤ t by omega) taken
  constructor
  · refine ⟨sq', got, done, ?_⟩
    rw [head]
    exact range_of_position place (by omega) (by omega)
  · intro first len copy
    rw [copied_message place buf_sz taken] at copy
    split at copy
    · cases copy
    next whole =>
      cases copy
      have size : toSize datalen = datalen.toNat := to_size (by omega) (by omega)
      have last := inside (by omega)
      have count := shape.count
      have cells : (w % N + n) * ns ≤ N * ns := Nat.mul_le_mul_right ns (by omega)
      rw [Nat.add_mul] at cells
      rw [size, node_at shape, shape.node, count, Int.toNat_natCast, nodeHeadSize, nodeCell]
      exact ⟨by omega, by omega, by omega⟩

/-- The checks of sq_get say nothing about the sign of the length, nor about the end of the
    array. -/
theorem sound_of_survives (place : Placement sq N ns h t) {buf_sz : Int} (legal : 1 ≤ buf_sz)
    (int : buf_sz < 2 ^ 31) {w : Nat}
    (walk : scan sq.head sq.rw_conflict (turn sq.head) sq.head.head_pos =
      some (.found (w % N : Nat) (dataLen sq.head.nodes (nodeAt sq.head (w % N : Nat)))
        (addPos sq.head (w % N : Nat)
          (numNeededNodes sq.head (dataLen sq.head.nodes (nodeAt sq.head (w % N : Nat)))))))
    (survives : Survives sq buf_sz) : LengthSound sq.head buf_sz (w % N : Nat) := by
  have shape := place.shape
  have wide := shape.wide
  have count := shape.count
  have cell := Nat.mod_lt w (show N > 0 by have := shape.reserve; omega)
  have whole := copied_message place buf_sz (claim_found walk)
  have copy := survives.copy
  obtain ⟨lowest, highest⟩ := data_len_int sq.head.nodes (nodeAt sq.head (w % N : Nat))
  unfold LengthSound
  generalize dataLen sq.head.nodes (nodeAt sq.head (w % N : Nat)) = datalen at *
  dsimp only
  by_cases short : datalen > buf_sz
  · exact ⟨by omega, fun fits => absurd fits (by omega)⟩
  rw [if_neg short] at whole
  obtain ⟨some_byte, fits, inside⟩ := copy _ _ whole
  have positive : 1 ≤ datalen := by
    unfold toSize at some_byte fits
    omega
  refine ⟨positive, fun _ => ?_⟩
  have size : toSize datalen = datalen.toNat := to_size (by omega) (by omega)
  rw [size, node_at shape, shape.node, count, Int.toNat_natCast, nodeHeadSize, nodeCell] at inside
  have room : datalen.toNat + 16 ≤ (N - w % N) * ns := by
    rw [Nat.sub_mul]
    omega
  have needed := need_le wide room
  rw [needed_of_int shape (by omega) highest, count]
  omega

theorem survives_iff (place : Placement sq N ns h t) {buf_sz : Int} (legal : 1 ≤ buf_sz)
    (int : buf_sz < 2 ^ 31) :
    Survives sq buf_sz ↔ ∀ pos, FirstToPass sq pos → LengthSound sq.head buf_sz pos := by
  obtain ⟨w, lower, upper, ends, first⟩ := get_walk place
  generalize walk : scan sq.head sq.rw_conflict (turn sq.head) sq.head.head_pos = scanned at ends
  by_cases message : w < t ∧ Passes sq.head (w % N : Nat)
  · obtain ⟨before, passes⟩ := message
    cases ends with
    | drained here => omega
    | busy _ blocks =>
      have token := blocks.1
      rw [passes.1] at token
      exact absurd token (by decide)
    | found _ _ =>
      constructor
      · intro survives pos passing
        obtain ⟨_, _, here⟩ := (first pos).mp passing
        rw [here]
        exact sound_of_survives place legal int walk survives
      · intro sound
        exact survives_message place legal lower before passes walk
          (sound _ ((first _).mpr ⟨before, passes, rfl⟩))
  · refine iff_of_true ?_ ?_
    · obtain ⟨scanned, rfl⟩ : ∃ some_end, scanned = some some_end := by
        cases ends <;> exact ⟨_, rfl⟩
      exact survives_without_message place legal lower walk ends message
    · intro pos passing
      obtain ⟨before, passes, _⟩ := (first pos).mp passing
      exact absurd ⟨before, passes⟩ message

end Walk

/-- sq_get alone on a queue with any node contents whatever. -/
theorem get_survives_iff_length_sound {sq : Handle} (size_pos : 0 < sq.head.ele_size)
    (size_int : sq.head.ele_size < 2 ^ 31) (count : RESERVE_BLOCK_COUNT < sq.head.ele_count)
    (small : sq.head.ele_count < 2 ^ 30)
    (head_low : 0 ≤ sq.head.head_pos) (head_high : sq.head.head_pos ≤ sq.head.ele_count)
    (tail_low : 0 ≤ sq.head.tail_pos) (tail_high : sq.head.tail_pos ≤ sq.head.ele_count)
    {buf_sz : Int} (legal : 1 ≤ buf_sz) (buf_int : buf_sz < 2 ^ 31) :
    Survives sq buf_sz ↔ ∀ pos, FirstToPass sq pos → LengthSound sq.head buf_sz pos := by
  obtain ⟨h, t, place⟩ := placement_of_bounds size_pos size_int count small head_low head_high
    tail_low tail_high
  exact survives_iff place legal buf_int

/-- Five nodes full of sevens: none has a token, and all are skipped. -/
theorem get_survives_sevens : Survives ⟨⟨8, 201, 200, 3, fun _ => 7⟩, 0, ""⟩ 10 := by
  refine (get_survives_iff_length_sound (by decide) (by decide) (by decide) (by decide)
    (by decide) (by decide) (by decide) (by decide) (by decide) (by decide)).mpr ?_
  rintro pos ⟨_, _, _, ⟨token, _⟩, _⟩
  dsimp only [startToken, load32] at token
  exact absurd token (by decide)

/-- One node with the token of a message and -1 in datalen. -/
def negativeLength : Handle :=
  ⟨⟨8, 201, 0, 1, store32 (store32 (fun _ => 0) 0 TOKEN_HAS_DATA) 4 (2 ^ 32 - 1)⟩, 0, ""⟩

theorem negative_length_is_copied : ¬ Survives negativeLength 10 := by
  intro survives
  have copy : copied negativeLength 10 = some (16, 2 ^ 64 - 1) := by decide +kernel
  have fits := (survives.copy _ _ copy).2.1
  exact absurd fits (by decide)

end UC.ShmQueue
