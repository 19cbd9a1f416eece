import UC.ShmQueue.Layout

/- What each operation does to the live region: one lemma for each function, on which
   the sequential and the interleaved results rest. -/
namespace UC.ShmQueue
open UC.Memory UC.Words UC.NodeRing

/-- No node of the positions c .. d - 1 is one of the positions a .. b - 1. -/
def Apart (N a b c d : Nat) : Prop :=
  ∀ v, c ≤ v → v < d → ∀ w, a ≤ w → w < b → v % N ≠ w % N

theorem apart_below {N a b c d : Nat} (behind : d ≤ a) (near : b ≤ c + N) :
    Apart N a b c d := by
  intro v hv hv' w hw hw'
  exact node_distinct (by omega) (by omega)

theorem apart_above {N a b c d : Nat} (behind : b ≤ c) (near : d ≤ a + N) :
    Apart N a b c d := by
  intro v hv hv' w hw hw'
  exact (node_distinct (by omega) (by omega)).symm

section Operations

variable {queue : SqHead} {N ns : Nat}

theorem node_at (shape : Shape queue N ns) (v : Nat) :
    nodeAt queue (v % N : Nat) = nodeCell N ns v := by
  rw [nodeAt, shape.node, Int.toNat_natCast, nodeCell]

theorem turn_eq (shape : Shape queue N ns) : turn queue = N := by
  have := shape.count
  have := shape.reserve
  unfold turn
  omega

theorem store_token_agree (wide : 16 < ns) (m : Mem UInt8) {a c d : Nat} (token : Nat)
    (apart : Apart N a (a + 1) c d) :
    Agree N ns m (store32 m (nodeCell N ns a) token) c d := by
  intro v lower upper o ho
  symm
  apply store32_outside
  have cells := other_node (apart v lower upper a (Nat.le_refl a) (by omega)) ho
  omega

theorem set_tokens_spec (shape : Shape queue N ns) {token : Nat} (word : token < 2 ^ 32)
    {a b : Nat} (le : a ≤ b) (near : b < a + N) {fuel : Nat} (enough : b - a ≤ fuel)
    (m : Mem UInt8) :
    ∃ m', setTokens queue token (b % N : Nat) fuel (a % N : Nat) m = some m' ∧
      Tokens N ns m' token a b ∧ ∀ c d, Apart N a b c d → Agree N ns m m' c d := by
  induction fuel generalizing a m with
  | zero =>
    obtain rfl : a = b := by omega
    refine ⟨m, if_pos rfl, ?_, ?_⟩
    · intro v lower upper
      omega
    · intro c d _ v _ _ o _
      rfl
  | succ fuel ih =>
    by_cases done : a = b
    · subst done
      refine ⟨m, if_pos rfl, ?_, ?_⟩
      · intro v lower upper
        omega
      · intro c d _ v _ _ o _
        rfl
    have wide := shape.wide
    have more : ((a % N : Nat) : Int) ≠ (b % N : Nat) := by
      exact_mod_cast node_distinct (show a < b by omega) near
    obtain ⟨m', walk, tokens, rest⟩ := ih (show a + 1 ≤ b by omega) (by omega) (by omega)
      (store32 m (nodeCell N ns a) token)
    refine ⟨m', ?_, ?_, ?_⟩
    · rw [setTokens, if_neg more, next_pos shape, node_at shape]
      exact walk
    · intro v lower upper
      rcases Nat.eq_or_lt_of_le lower with here | later
      · subst here
        have kept := rest a (a + 1) (apart_below (Nat.le_refl _) (by omega))
        rw [token_agree wide kept]
        exact (load32_store32 m (nodeCell N ns a) token).trans (Nat.mod_eq_of_lt word)
      · exact tokens v later upper
    · intro c d apart
      have here : Apart N a (a + 1) c d := by
        intro v hv hv' w hw hw'
        exact apart v hv hv' w hw (by omega)
      have later : Apart N (a + 1) b c d := by
        intro v hv hv' w hw hw'
        exact apart v hv hv' w (by omega) hw'
      exact agree_trans (store_token_agree wide m token here) (rest c d later)

theorem write_node_outside (m : Mem UInt8) (node : Nat) (now : Timeval) (data : Mem UInt8)
    {datalen : Int} {x : Nat} (h : x < node ∨ node + 16 + toSize datalen ≤ x) :
    writeNode m node now data datalen x = m x := by
  unfold writeNode nodeHeadSize
  rw [store32_outside _ _ (by omega), memcpy_outside _ _ (by omega),
    store32_outside _ _ (by omega), store32_outside _ _ (by omega),
    store32_outside _ _ (by omega)]

theorem write_node_block (m : Mem UInt8) (s : Nat) (now : Timeval) (data : Mem UInt8)
    {datalen : Int} (low : 1 ≤ datalen) (high : datalen ≤ MAX_SQ_DATA_LENGTH) :
    Block N ns (writeNode m (nodeCell N ns s) now data datalen) s
      (datalen, slice data 0 datalen.toNat) := by
  have limit := high
  unfold MAX_SQ_DATA_LENGTH at limit
  have size : toSize datalen = datalen.toNat := to_size (by omega) (by omega)
  constructor
  · exact low
  · exact high
  · exact load32_store32 _ _ _
  · have word : load32 (writeNode m (nodeCell N ns s) now data datalen) (nodeCell N ns s + 4) =
        toU32 datalen % 2 ^ 32 := by
      unfold writeNode nodeHeadSize
      rw [load32_store32_outside _ _ (by omega)]
      rw [← load32_store32 m (nodeCell N ns s + 4) (toU32 datalen)]
      apply load32_congr
      intro i hi
      rw [memcpy_outside _ _ (by omega), store32_outside _ _ (by omega),
        store32_outside _ _ (by omega)]
    rw [dataLen, word, to_u32 (by omega) (by omega), Nat.mod_eq_of_lt (by omega),
      to_int (by omega) (by omega)]
    omega
  · unfold writeNode nodeHeadSize
    rw [size]
    rw [← slice_memcpy m data (nodeCell N ns s + 16) 0 datalen.toNat]
    apply slice_congr
    intro i hi
    rw [store32_outside _ _ (by omega), memcpy_inside _ _ hi, memcpy_inside _ _ hi]

/-- The end of the nodes skipped before a message is node 0. -/
theorem skip_end {h s n : Nat} (placed : Placed N h s n) (skip : s ≠ h) :
    s % N = 0 ∧ h % N ≠ 0 := by
  obtain ⟨zero, near⟩ := placed.wrap skip
  have after := placed.after
  have distinct := node_distinct (show h < s by omega) near
  omega

theorem publish_spec (shape : Shape queue N ns) {e s : Nat} {datalen : Int}
    (low : 1 ≤ datalen) (high : datalen ≤ MAX_SQ_DATA_LENGTH)
    (placed : Placed N e s (need ns datalen.toNat)) (new_tail : Int) (now : Timeval)
    (data : Mem UInt8) :
    ∃ m, publish queue ⟨(s % N : Nat), (e % N : Nat), new_tail⟩ now data datalen =
        some { queue with nodes := m } ∧
      Entry N ns m e s (datalen, slice data 0 datalen.toNat) ∧
      ∀ c d, Apart N e (s + need ns datalen.toNat) c d → Agree N ns queue.nodes m c d := by
  have wide := shape.wide
  have after := placed.after
  have inside := placed.inside
  have fits := need_fits wide datalen.toNat
  have limit := high
  unfold MAX_SQ_DATA_LENGTH at limit
  have size : toSize datalen = datalen.toNat := to_size (by omega) (by omega)
  have marked : ∃ m, (if ((s % N : Nat) : Int) = 0 ∧ ((e % N : Nat) : Int) ≠ 0 then
        setTokens queue TOKEN_SKIPPED 0 (turn queue) (e % N : Nat) queue.nodes
      else some queue.nodes) = some m ∧
      Tokens N ns m TOKEN_SKIPPED e s ∧ ∀ c d, Apart N e s c d → Agree N ns queue.nodes m c d := by
    by_cases skip : s = e
    · subst skip
      refine ⟨queue.nodes, if_neg (by omega), ?_, ?_⟩
      · intro v lower upper
        omega
      · intro c d _ v _ _ o _
        rfl
    · obtain ⟨zero, start⟩ := skip_end placed skip
      obtain ⟨_, near⟩ := placed.wrap skip
      have walk := set_tokens_spec shape (show TOKEN_SKIPPED < 2 ^ 32 by decide) after near
        (show s - e ≤ turn queue by rw [turn_eq shape]; omega) queue.nodes
      rw [zero] at walk
      rw [if_pos (by omega)]
      exact walk
  obtain ⟨m, walk, skipped, rest⟩ := marked
  have outside : ∀ x, (x < nodeCell N ns s ∨
      nodeCell N ns s + need ns datalen.toNat * ns ≤ x) →
      writeNode m (nodeCell N ns s) now data datalen x = m x := by
    intro x hx
    exact write_node_outside m _ now data (by omega)
  refine ⟨writeNode m (nodeCell N ns s) now data datalen, ?_, ⟨placed, ?_, ?_⟩, ?_⟩
  · unfold publish
    dsimp only
    rw [walk, node_at shape]
    rfl
  · apply tokens_agree wide _ skipped
    apply agree_outside_block (Nat.le_of_lt inside) _ outside
    intro v lower upper k hk
    exact apart_below (Nat.le_refl s) placed.near v lower upper (s + k) (by omega) (by omega)
  · exact write_node_block m s now data low high
  · intro c d apart
    have skips : Apart N e s c d := by
      intro v hv hv' w hw hw'
      exact apart v hv hv' w hw (by omega)
    apply agree_trans (rest c d skips)
    apply agree_outside_block (Nat.le_of_lt inside) _ outside
    intro v lower upper k hk
    exact apart v lower upper (s + k) (by omega) (by omega)

/-- A tail that has to turn round is in the lap of the head: the free nodes would not
    reach round otherwise. -/
theorem same_lap {h t n : Nat} (le : h ≤ t) (room : t - h + n < N) (turned : N ≤ t % N + n) :
    h / N = t / N := by
  apply Nat.le_antisymm (Nat.div_le_div_right le)
  by_contra earlier
  have lap := Nat.mul_le_mul_left N (show h / N + 1 ≤ t / N by omega)
  rw [Nat.mul_add, Nat.mul_one] at lap
  have head := Nat.div_add_mod h N
  have tail := Nat.div_add_mod t N
  have cell := Nat.mod_lt h (show N > 0 by omega)
  omega

theorem reserve_spec (shape : Shape queue N ns) {h t : Nat} (le : h ≤ t) (near : t < h + N)
    (head_at : queue.head_pos = (h % N : Nat)) (tail_at : queue.tail_pos = (t % N : Nat))
    {datalen : Int} (low : 1 ≤ datalen) (high : datalen ≤ MAX_SQ_DATA_LENGTH)
    {r : Reservation} (reserved : reserve queue datalen = some r) :
    ∃ s, Placed N t s (need ns datalen.toNat) ∧ s + need ns datalen.toNat < h + N ∧
      r = ⟨(s % N : Nat), (t % N : Nat), ((s + need ns datalen.toNat) % N : Nat)⟩ := by
  have empty := empty_nodes shape le near tail_at
  have some_node := need_pos shape.wide datalen.toNat
  unfold reserve emptyNodes at reserved
  rw [head_at, tail_at, empty, num_needed shape (by omega) high] at reserved
  dsimp only at reserved
  rw [add_pos shape] at reserved
  generalize need ns datalen.toNat = n at *
  split at reserved
  · cases reserved
  · next room =>
    unfold RESERVE_BLOCK_COUNT at room
    have cell := Nat.mod_lt t (show N > 0 by omega)
    have tail_cell : (t + n) % N = if N ≤ t % N + n then t % N + n - N else t % N + n := by
      rw [Nat.add_mod_eq_ite, Nat.mod_eq_of_lt (show n < N by omega)]
    split at reserved
    · next wrapped =>
      split at reserved
      · cases reserved
      · next reach =>
        cases reserved
        have turned : N ≤ t % N + n := by
          by_contra straight
          rw [if_neg straight] at tail_cell
          omega
        have lap := same_lap le (show t - h + n < N by omega) turned
        have head := Nat.div_add_mod h N
        have tail := Nat.div_add_mod t N
        rw [lap] at head
        have zero : (t + (N - t % N)) % N = 0 := by
          rw [show t + (N - t % N) = N * (t / N + 1) by rw [Nat.mul_add]; omega]
          exact Nat.mul_mod_right N _
        refine ⟨t + (N - t % N), ⟨by omega, fun _ => ⟨zero, ?_⟩, ?_, ?_⟩, ?_, ?_⟩
        · omega
        · omega
        · omega
        · omega
        · have behind : (t + (N - t % N) + n) % N = n := by
            rw [Nat.add_mod, zero, Nat.zero_add, Nat.mod_mod, Nat.mod_eq_of_lt (by omega)]
          rw [zero, behind]
          rfl
    · next straight =>
      cases reserved
      have fits : t % N + n < N := by
        by_contra turned
        rw [if_pos (by omega)] at tail_cell
        omega
      exact ⟨t, ⟨Nat.le_refl t, fun ne => absurd rfl ne, fits, by omega⟩, by omega, rfl⟩

theorem scan_entry (shape : Shape queue N ns) {h s t : Nat} {msg : Message}
    (entry : Entry N ns queue.nodes h s msg) (tail_at : queue.tail_pos = (t % N : Nat))
    (present : s + span ns msg ≤ t) (near : t < h + N) (rw_conflict : Int) (k : Nat) :
    ∀ v fuel, h ≤ v → v + k = s → k < fuel →
      scan queue rw_conflict fuel (v % N : Nat) =
        some (.found (s % N : Nat) msg.1 ((s + span ns msg) % N : Nat)) := by
  have some_node := need_pos shape.wide msg.1.toNat
  have low := entry.block.low
  induction k with
  | zero =>
    intro v fuel lower here enough
    obtain rfl : v = s := here
    obtain ⟨fuel, rfl⟩ := Nat.exists_eq_succ_of_ne_zero (show fuel ≠ 0 by omega)
    have live : (t % N : Nat) ≠ v % N :=
      (node_distinct (by unfold span at present; omega) (by omega)).symm
    have used := used_nodes shape (show v ≤ t by omega) (by omega) tail_at
    have needed := num_needed shape (show 0 ≤ msg.1 by omega) entry.block.high
    have whole : ¬ ((t - v : Nat) : Int) < (need ns msg.1.toNat : Nat) :=
      not_lt.mpr (Int.ofNat_le.mpr (Nat.le_sub_of_add_le' present))
    have len := entry.block.len
    have token := entry.block.token
    rw [← node_at shape] at len token
    unfold scan
    dsimp only
    rw [if_neg (by rw [tail_at]; exact_mod_cast live), if_neg (not_not.mpr token), len, needed,
      used, if_neg whole, add_pos shape]
    rfl
  | succ k ih =>
    intro v fuel lower here enough
    obtain ⟨fuel, rfl⟩ := Nat.exists_eq_succ_of_ne_zero (show fuel ≠ 0 by omega)
    have live : (t % N : Nat) ≠ v % N := (node_distinct (by omega) (by omega)).symm
    have token := entry.skipped v lower (by omega)
    rw [← node_at shape] at token
    unfold scan
    dsimp only
    rw [if_neg (by rw [tail_at]; exact_mod_cast live), token,
      if_pos (show TOKEN_SKIPPED ≠ TOKEN_HAS_DATA by decide),
      if_neg (fun no => absurd no.1 (show TOKEN_SKIPPED ≠ TOKEN_NO_DATA by decide)),
      next_pos shape]
    exact ih (v + 1) fuel (by omega) (by omega) (by omega)

theorem claim_message {sq : Handle} (shape : Shape sq.head N ns) {h s t : Nat} {msg : Message}
    (entry : Entry N ns sq.head.nodes h s msg) (head_at : sq.head.head_pos = (h % N : Nat))
    (tail_at : sq.head.tail_pos = (t % N : Nat)) (present : s + span ns msg ≤ t)
    (near : t < h + N) :
    claim sq = some ({ sq with head := { sq.head with head_pos := ((s + span ns msg) % N : Nat) } },
      .message (h % N : Nat) (s % N : Nat) ((s + span ns msg) % N : Nat) msg.1) := by
  have some_node := need_pos shape.wide msg.1.toNat
  have after := entry.placed.after
  have walk := scan_entry shape entry tail_at present near sq.rw_conflict (s - h) h N
    (Nat.le_refl h) (by omega) (by unfold span at present; omega)
  unfold claim
  dsimp only
  rw [turn_eq shape, head_at, walk]
  rfl

theorem claim_drained {sq : Handle} (shape : Shape sq.head N ns)
    (empty : sq.head.tail_pos = sq.head.head_pos) :
    claim sq = some ({ sq with rw_conflict := 0 }, .noData) := by
  have reserve := shape.reserve
  obtain ⟨fuel, steps⟩ := Nat.exists_eq_succ_of_ne_zero (show turn sq.head ≠ 0 by
    rw [turn_eq shape]; omega)
  unfold claim
  dsimp only
  rw [steps, scan, if_pos empty]
  simp only [Option.map_some, ne_eq, not_true_eq_false, if_false]

theorem scan_busy (shape : Shape queue N ns) {h t : Nat}
    (token : startToken queue.nodes (nodeCell N ns h) = TOKEN_NO_DATA)
    (tail_at : queue.tail_pos = (t % N : Nat)) (reserved : h < t) (near : t < h + N)
    {rw_conflict : Int} (patient : rw_conflict < SQ_MAX_CONFLICT_TRIES) :
    scan queue rw_conflict (turn queue) (h % N : Nat) = some .busy := by
  have reserve := shape.reserve
  have live : (t % N : Nat) ≠ h % N := (node_distinct reserved near).symm
  obtain ⟨fuel, steps⟩ := Nat.exists_eq_succ_of_ne_zero (show turn queue ≠ 0 by
    rw [turn_eq shape]; omega)
  rw [← node_at shape] at token
  rw [steps]
  unfold scan
  dsimp only
  rw [if_neg (by rw [tail_at]; exact_mod_cast live), token,
    if_pos (show TOKEN_NO_DATA ≠ TOKEN_HAS_DATA by decide), if_pos ⟨rfl, patient⟩]

theorem claim_busy {sq : Handle}
    (blocked : scan sq.head sq.rw_conflict (turn sq.head) sq.head.head_pos = some .busy) :
    claim sq = some ({ sq with rw_conflict := sq.rw_conflict + 1 }, .noData) := by
  unfold claim
  dsimp only
  rw [blocked]
  rfl

theorem release_spec {sq : Handle} (shape : Shape sq.head N ns) {b h : Nat} (le : b ≤ h)
    (near : h < b + N) :
    ∃ m, release sq (b % N : Nat) (h % N : Nat) =
        some { sq with head := { sq.head with nodes := m }, rw_conflict := 0 } ∧
      Tokens N ns m TOKEN_NO_DATA b h ∧
      ∀ c d, Apart N b h c d → Agree N ns sq.head.nodes m c d := by
  obtain ⟨m, walk, tokens, rest⟩ := set_tokens_spec shape (show TOKEN_NO_DATA < 2 ^ 32 by decide)
    le near (show h - b ≤ turn sq.head by rw [turn_eq shape]; omega) sq.head.nodes
  refine ⟨m, ?_, tokens, rest⟩
  unfold release
  rw [show (0 : Nat) = TOKEN_NO_DATA from rfl, walk]
  rfl

theorem finish_message {sq : Handle} (shape : Shape sq.head N ns) {b s : Nat} {msg : Message}
    (entry : Entry N ns sq.head.nodes b s msg) {buf_sz : Int}
    (fits : msg.1 ≤ buf_sz) (near : s + span ns msg < b + N) :
    ∃ m time, finish sq buf_sz
        (.message (b % N : Nat) (s % N : Nat) ((s + span ns msg) % N : Nat) msg.1) =
          some ({ sq with head := { sq.head with nodes := m }, rw_conflict := 0 },
            ⟨msg.1, msg.2, time⟩) ∧
      Tokens N ns m TOKEN_NO_DATA b (s + span ns msg) ∧
      ∀ c d, Apart N b (s + span ns msg) c d → Agree N ns sq.head.nodes m c d := by
  have after := entry.placed.after
  have low := entry.block.low
  have high := entry.block.high
  have limit := high
  unfold MAX_SQ_DATA_LENGTH at limit
  have size : toSize msg.1 = msg.1.toNat := to_size (by omega) (by omega)
  obtain ⟨m, released, tokens, rest⟩ := release_spec shape (show b ≤ s + span ns msg by omega) near
  refine ⟨m, some (enqueueTime sq.head.nodes (nodeCell N ns s)), ?_, tokens, rest⟩
  unfold finish
  dsimp only
  rw [if_neg (by omega), node_at shape, size, entry.block.bytes, released]
  rfl

/-- A buffer too small for the message: only the error text changes. -/
theorem finish_short (sq : Handle) (old_head head new_head : Int) {buf_sz datalen : Int}
    (short : buf_sz < datalen) :
    ∃ text got, finish sq buf_sz (.message old_head head new_head datalen) =
      some ({ sq with errmsg := text }, got) :=
  ⟨_, _, if_pos short⟩

theorem finish_released {sq sq' : Handle} {old_head head new_head buf_sz datalen : Int}
    (fits : datalen ≤ buf_sz) (released : release sq old_head new_head = some sq') :
    ∃ got, finish sq buf_sz (.message old_head head new_head datalen) = some (sq', got) := by
  refine ⟨⟨datalen, slice sq.head.nodes (nodeAt sq.head head + nodeHeadSize) (toSize datalen),
    some (enqueueTime sq.head.nodes (nodeAt sq.head head))⟩, ?_⟩
  rw [finish]
  dsimp only
  rw [if_neg (not_lt.mpr fits), released]
  rfl

theorem get_run {sq claimed sq' : Handle} {c : Claim} {buf_sz : Int} {got : Got}
    (legal : 1 ≤ buf_sz) (taken : claim sq = some (claimed, c))
    (finished : finish claimed buf_sz c = some (sq', got)) : sqGet sq buf_sz = some (sq', got) := by
  rw [sqGet, if_neg (by omega), taken, Option.bind_some]
  exact finished

end Operations

end UC.ShmQueue
