import UC.ShmQueue.FreeNodes
import UC.ShmQueue.Gap

/- Which nodes a put takes. All of them are free before the call; whether an empty queue has
   them depends on where in the ring it is empty. -/
namespace UC.ShmQueue
open UC.Memory UC.Words UC.NodeRing

/-- The nodes setTokens goes through. -/
def visited (queue : SqHead) (stop : Int) : Nat → Int → List Int
  | 0, _ => []
  | fuel + 1, pos =>
    if pos = stop then [] else pos :: visited queue stop fuel (addPos queue pos 1)

def Carries (queue : SqHead) (r : Reservation) (datalen i : Int) : Prop :=
  r.idx ≤ i ∧ i < r.idx + numNeededNodes queue datalen

def Skips (queue : SqHead) (r : Reservation) (i : Int) : Prop :=
  (r.idx = 0 ∧ r.old_tail ≠ 0) ∧ i ∈ visited queue 0 (turn queue) r.old_tail

def ByteOf (queue : SqHead) (i : Int) (x : Nat) : Prop :=
  nodeAt queue i ≤ x ∧ x < nodeAt queue i + nodeSize queue

section Walk

variable {queue : SqHead} {N ns : Nat}

theorem visited_iff (shape : Shape queue N ns) {a b : Nat} (le : a ≤ b) (near : b < a + N)
    {fuel : Nat} (enough : b - a ≤ fuel) {i : Int} :
    i ∈ visited queue (b % N : Nat) fuel (a % N : Nat) ↔
      ∃ v, a ≤ v ∧ v < b ∧ i = (v % N : Nat) := by
  induction fuel generalizing a with
  | zero =>
    simp only [visited, List.not_mem_nil, false_iff]
    rintro ⟨v, lower, upper, _⟩
    omega
  | succ fuel ih =>
    by_cases done : a = b
    · subst done
      simp only [visited, ↓reduceIte, List.not_mem_nil, false_iff]
      rintro ⟨v, lower, upper, _⟩
      omega
    have more : ((a % N : Nat) : Int) ≠ (b % N : Nat) := by
      exact_mod_cast node_distinct (show a < b by omega) near
    rw [visited, if_neg more, next_pos shape, List.mem_cons,
      ih (show a + 1 ≤ b by omega) (by omega) (by omega)]
    constructor
    · rintro (here | ⟨v, lower, upper, node⟩)
      · exact ⟨a, Nat.le_refl a, by omega, here⟩
      · exact ⟨v, by omega, upper, node⟩
    · rintro ⟨v, lower, upper, node⟩
      rcases Nat.eq_or_lt_of_le lower with here | later
      · left
        rw [node, here]
      · exact .inr ⟨v, later, upper, node⟩

/-- The walk does not look at the tail. -/
theorem visited_moved (tail : Int) (stop : Int) (fuel : Nat) (pos : Int) :
    visited { queue with tail_pos := tail } stop fuel pos = visited queue stop fuel pos := by
  induction fuel generalizing pos with
  | zero => rfl
  | succ fuel ih =>
    rw [visited, visited, ih]
    rfl

theorem set_tokens_outside (wide : 16 < nodeSize queue) {token : Nat} {stop : Int} {fuel : Nat}
    {pos : Int} {m m' : Mem UInt8} (done : setTokens queue token stop fuel pos m = some m')
    {x : Nat} (outside : ∀ i ∈ visited queue stop fuel pos, ¬ ByteOf queue i x) : m' x = m x := by
  induction fuel generalizing pos m with
  | zero =>
    unfold setTokens at done
    split at done <;> cases done
    rfl
  | succ fuel ih =>
    unfold setTokens at done
    unfold visited at outside
    split at done
    · cases done
      rfl
    next more =>
      rw [if_neg more] at outside
      rw [ih done fun i mem => outside i (List.mem_cons_of_mem pos mem)]
      have apart := outside pos List.mem_cons_self
      unfold ByteOf at apart
      exact store32_outside _ _ (by omega)

end Walk

section Put

variable {N ns h t : Nat} {s : Caller}

theorem sq_put_reserved {sq : Handle} {now : Timeval} {data : Mem UInt8} {datalen : Int}
    (low : 1 ≤ datalen) (high : datalen ≤ MAX_SQ_DATA_LENGTH) {r : Reservation}
    (reserved : reserve sq.head datalen = some r) :
    sqPut sq now data datalen =
      (publish { sq.head with tail_pos := r.new_tail } r now data datalen).map fun head =>
        ({ sq with head := head }, 0) := by
  have good : ¬ (datalen ≤ 0 ∨ datalen > MAX_SQ_DATA_LENGTH) := by omega
  rw [sqPut, if_neg good, reserved]

theorem sq_put_refused {sq : Handle} {now : Timeval} {data : Mem UInt8} {datalen : Int}
    (low : 1 ≤ datalen) (high : datalen ≤ MAX_SQ_DATA_LENGTH)
    (refused : reserve sq.head datalen = none) :
    sqPut sq now data datalen =
      some ({ sq with errmsg := "Not enough for new data" }, -2) := by
  have good : ¬ (datalen ≤ 0 ∨ datalen > MAX_SQ_DATA_LENGTH) := by omega
  rw [sqPut, if_neg good, refused]

/-- The positions of the nodes a put takes: those skipped and then those of the message. -/
theorem taken_iff (shape : Shape s.sq.head N ns) {p : Nat} {datalen : Int} {new_tail : Int}
    (low : 1 ≤ datalen) (high : datalen ≤ MAX_SQ_DATA_LENGTH)
    (placed : Placed N t p (need ns datalen.toNat)) {i : Int} :
    Carries s.sq.head ⟨(p % N : Nat), (t % N : Nat), new_tail⟩ datalen i ∨
      Skips s.sq.head ⟨(p % N : Nat), (t % N : Nat), new_tail⟩ i ↔
      ∃ v, t ≤ v ∧ v < p + need ns datalen.toNat ∧ i = (v % N : Nat) := by
  have after := placed.after
  have inside := placed.inside
  have own : Carries s.sq.head ⟨(p % N : Nat), (t % N : Nat), new_tail⟩ datalen i ↔
      ∃ v, p ≤ v ∧ v < p + need ns datalen.toNat ∧ i = (v % N : Nat) := by
    unfold Carries
    dsimp only
    rw [num_needed shape (by omega) high]
    constructor
    · rintro ⟨lower, upper⟩
      have node := block_node (Nat.le_of_lt inside) (show (i - (p % N : Nat)).toNat < _ by omega)
      exact ⟨p + (i - (p % N : Nat)).toNat, by omega, by omega, by omega⟩
    · rintro ⟨v, lower, upper, node⟩
      have cell := block_node (Nat.le_of_lt inside) (show v - p < need ns datalen.toNat by omega)
      rw [Nat.add_sub_cancel' lower] at cell
      omega
  have before : Skips s.sq.head ⟨(p % N : Nat), (t % N : Nat), new_tail⟩ i ↔
      ∃ v, t ≤ v ∧ v < p ∧ i = (v % N : Nat) := by
    unfold Skips
    by_cases skip : p = t
    · subst skip
      constructor
      · rintro ⟨⟨zero, more⟩, _⟩
        exact absurd zero more
      · rintro ⟨v, lower, upper, _⟩
        omega
    · obtain ⟨zero, start⟩ := skip_end placed skip
      have near := (placed.wrap skip).2
      have walk := visited_iff shape after near (i := i)
        (show p - t ≤ turn s.sq.head by rw [turn_eq shape]; omega)
      rw [zero] at walk ⊢
      rw [and_iff_right ⟨rfl, Int.natCast_ne_zero.mpr start⟩]
      exact walk
  rw [own, before]
  constructor
  · rintro (⟨v, lower, upper, node⟩ | ⟨v, lower, upper, node⟩)
    · exact ⟨v, by omega, upper, node⟩
    · exact ⟨v, lower, by omega, node⟩
  · rintro ⟨v, lower, upper, node⟩
    by_cases skipped : v < p
    · exact .inr ⟨v, lower, skipped, node⟩
    · exact .inl ⟨v, by omega, upper, node⟩

/-- Every byte that publish changes belongs to a node that the put takes. -/
theorem publish_outside {queue : SqHead} (shape : Shape queue N ns) {r : Reservation}
    {now : Timeval} {data : Mem UInt8} {datalen : Int} (low : 1 ≤ datalen)
    (high : datalen ≤ MAX_SQ_DATA_LENGTH) (first : 0 ≤ r.idx) {queue' : SqHead}
    (done : publish { queue with tail_pos := r.new_tail } r now data datalen = some queue')
    {x : Nat} (outside : ∀ i, Carries queue r datalen i ∨ Skips queue r i → ¬ ByteOf queue i x) :
    queue'.nodes x = queue.nodes x := by
  have wide := shape.wide
  have limit := high
  unfold MAX_SQ_DATA_LENGTH at limit
  have size : toSize datalen = datalen.toNat := to_size (by omega) (by omega)
  have fits := need_fits wide datalen.toNat
  obtain ⟨m, marked, rfl⟩ := Option.map_eq_some_iff.mp done
  have own : x < nodeAt queue r.idx ∨ nodeAt queue r.idx + 16 + toSize datalen ≤ x := by
    by_contra within
    -- the node of byte x, counted from the first one of the message
    have pos : 0 < ns := by omega
    have node := Nat.div_add_mod (x - nodeAt queue r.idx) ns
    have rest := Nat.mod_lt (x - nodeAt queue r.idx) pos
    have inside : (x - nodeAt queue r.idx) / ns < need ns datalen.toNat := by
      rw [Nat.div_lt_iff_lt_mul pos]
      omega
    generalize (x - nodeAt queue r.idx) / ns = k at node inside
    rw [Nat.mul_comm] at node
    refine outside (r.idx + k) (.inl ⟨by omega, ?_⟩) ?_
    · rw [num_needed shape (by omega) high]
      omega
    · have cell : nodeAt queue (r.idx + k) = nodeAt queue r.idx + k * ns := by
        unfold nodeAt
        rw [shape.node, ← Nat.add_mul]
        congr 1
        omega
      unfold ByteOf
      rw [cell, shape.node]
      omega
  refine (write_node_outside m _ now data own).trans ?_
  split at marked
  next skip =>
    refine set_tokens_outside (by rw [← shape.node] at wide; exact wide) marked ?_
    intro i mem
    rw [visited_moved] at mem
    exact outside i (.inr ⟨skip, mem⟩)
  · cases marked
    rfl

theorem put_room (between : Between N ns s h t) {datalen : Int} (low : 1 ≤ datalen)
    (high : datalen ≤ MAX_SQ_DATA_LENGTH) {r : Reservation}
    (reserved : reserve s.sq.head datalen = some r) :
    (∀ i, Carries s.sq.head r datalen i ∨ Skips s.sq.head r i →
      0 ≤ i ∧ i ≤ s.sq.head.ele_count ∧
        ¬ InRange s.sq.head.head_pos s.sq.head.tail_pos i) ∧
    r.new_tail ≠ s.sq.head.head_pos ∧ 0 ≤ r.idx := by
  have shape := between.shape
  have le := layout_le between.stored
  obtain ⟨p, placed, near, range⟩ :=
    reserve_spec shape le between.near between.head_at between.tail_at low high reserved
  have after := placed.after
  have some_node := need_pos shape.wide datalen.toNat
  subst range
  refine ⟨?_, ?_, Int.natCast_nonneg _⟩
  · intro i taken
    obtain ⟨v, lower, upper, rfl⟩ := (taken_iff shape low high placed).mp taken
    have count := shape.count
    have node := Nat.mod_lt v (show N > 0 by omega)
    refine ⟨Int.natCast_nonneg _, by omega, ?_⟩
    rw [between.head_at, between.tail_at]
    exact not_in_range le lower (by omega)
  · have distinct := node_distinct (show h < p + need ns datalen.toNat by omega) near
    rw [between.head_at]
    exact Int.ofNat_inj.not.mpr distinct.symm

theorem message_fits (shape : Shape s.sq.head N ns) {datalen : Int} (low : 1 ≤ datalen)
    (high : datalen ≤ MAX_SQ_DATA_LENGTH) :
    (nodeHeadSize : Int) + datalen ≤ numNeededNodes s.sq.head datalen * nodeSize s.sq.head := by
  have fits := need_fits shape.wide datalen.toNat
  rw [num_needed shape (by omega) high, shape.node, nodeHeadSize]
  rw [← Nat.cast_mul]
  omega

theorem put_published (between : Between N ns s h t) (now : Timeval) (data : Mem UInt8)
    {datalen : Int} (low : 1 ≤ datalen) (high : datalen ≤ MAX_SQ_DATA_LENGTH) {r : Reservation}
    (reserved : reserve s.sq.head datalen = some r) :
    ∃ head, publish { s.sq.head with tail_pos := r.new_tail } r now data datalen = some head ∧
      sqPut s.sq now data datalen = some ({ s.sq with head := head }, 0) ∧
      head.head_pos = s.sq.head.head_pos ∧ head.tail_pos = r.new_tail := by
  obtain ⟨sq', ret, _, _, done, _⟩ := put_effect between now data datalen
  rw [sq_put_reserved low high reserved] at done ⊢
  obtain ⟨head, published, _⟩ := Option.map_eq_some_iff.mp done
  refine ⟨head, published, ?_, ?_, ?_⟩
  · rw [published]
    rfl
  all_goals
    obtain ⟨m, _, rfl⟩ := Option.map_eq_some_iff.mp published
    rfl

end Put

/-- After any calls at all, a put that is accepted takes nodes of the ring that are free,
    enough of them for the message, and changes no byte outside them. -/
theorem put_takes_free_nodes {sq : Handle} (fresh : Fresh sq) (cs : List Call) :
    ∃ s, performAll cs ⟨sq, []⟩ = some s ∧ ∀ now data datalen,
      1 ≤ datalen → datalen ≤ MAX_SQ_DATA_LENGTH →
      ∃ sq' ret, sqPut s.sq now data datalen = some (sq', ret) ∧ (ret = 0 →
        ∃ r, reserve s.sq.head datalen = some r ∧
          (∀ i, Carries s.sq.head r datalen i ∨ Skips s.sq.head r i →
            0 ≤ i ∧ i ≤ s.sq.head.ele_count ∧
              ¬ InRange s.sq.head.head_pos s.sq.head.tail_pos i) ∧
          (nodeHeadSize : Int) + datalen ≤
            numNeededNodes s.sq.head datalen * nodeSize s.sq.head ∧
          (∀ x, (∀ i, Carries s.sq.head r datalen i ∨ Skips s.sq.head r i →
            ¬ ByteOf s.sq.head i x) → sq'.head.nodes x = s.sq.head.nodes x) ∧
          sq'.head.head_pos = s.sq.head.head_pos ∧ sq'.head.tail_pos ≠ sq'.head.head_pos) := by
  obtain ⟨s, h, t, run, between⟩ := perform_all_between (between_start fresh) cs
  have shape := between.shape
  refine ⟨s, run, ?_⟩
  intro now data datalen low high
  cases room : reserve s.sq.head datalen with
  | none =>
    refine ⟨_, _, sq_put_refused low high room, ?_⟩
    intro absurd
    cases absurd
  | some r =>
    obtain ⟨free, apart, first⟩ := put_room between low high room
    obtain ⟨head, published, done, same_head, tail⟩ := put_published between now data low high room
    refine ⟨_, _, done, fun _ => ⟨r, rfl, free, message_fits shape low high, ?_, same_head, ?_⟩⟩
    · intro x outside
      exact publish_outside shape low high first published outside
    · rw [tail, same_head]
      exact apart

/-- The first message dropped, the second one behind it. -/
theorem second_put_takes_free_nodes :
    ∃ s sq' r, performAll [.put ⟨0, 0⟩ (fun _ => 1) 40, .get 8] ⟨smallQueue, []⟩ = some s ∧
      sqPut s.sq ⟨0, 0⟩ (fun _ => 2) 100 = some (sq', 0) ∧ reserve s.sq.head 100 = some r ∧
      (∀ i, Carries s.sq.head r 100 i ∨ Skips s.sq.head r i →
        ¬ InRange s.sq.head.head_pos s.sq.head.tail_pos i) ∧
      sq'.head.tail_pos ≠ sq'.head.head_pos := by
  obtain ⟨s, run, puts⟩ := put_takes_free_nodes small_queue_fresh
    [.put ⟨0, 0⟩ (fun _ => 1) 40, .get 8]
  obtain ⟨sq', ret, done, taken⟩ := puts ⟨0, 0⟩ (fun _ => 2) 100 (by decide) (by decide)
  have accepted : ((performAll [.put ⟨0, 0⟩ (fun _ => 1) 40, .get 8] ⟨smallQueue, []⟩).bind
      fun s => sqPut s.sq ⟨0, 0⟩ (fun _ => 2) 100).map (fun put => put.2) = some 0 := by
    decide +kernel
  rw [run, Option.bind_some, done] at accepted
  obtain rfl : ret = 0 := Option.some.inj accepted
  obtain ⟨r, reserved, free, _, _, _, apart⟩ := taken rfl
  exact ⟨s, sq', r, run, done, reserved, fun i mem => (free i mem).2.2, apart⟩

end UC.ShmQueue
