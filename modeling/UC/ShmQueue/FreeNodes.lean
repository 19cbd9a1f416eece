import UC.ShmQueue.Sequential

/- The tokens of the nodes outside the live region. Every exit of sq_get that moves
   head_pos clears what it releases, but for the one that reports a short buffer. -/
namespace UC.ShmQueue
open UC.Memory UC.NodeRing

/-- No node outside the cyclic range from head_pos to tail_pos has a token. -/
def FreeClear (queue : SqHead) : Prop :=
  ∀ i : Nat, (i : Int) ≤ queue.ele_count → ¬ InRange queue.head_pos queue.tail_pos i →
    startToken queue.nodes (nodeAt queue i) = TOKEN_NO_DATA

theorem not_in_range {N h t v : Nat} (le : h ≤ t) (lower : t ≤ v) (upper : v < h + N) :
    ¬ InRange (h % N : Nat) (t % N : Nat) (v % N : Nat) := by
  rcases Nat.eq_or_lt_of_le le with same | less
  · subst same
    unfold InRange
    split <;> omega
  · have other := in_range (N := N) lower upper (by omega)
    have distinct := node_distinct less (show t < h + N by omega)
    rw [Nat.add_mod_right] at other
    unfold InRange at other ⊢
    split at other <;> split <;> omega

theorem position_of {N i : Nat} (h : Nat) (node : i < N) : ∃ v, h ≤ v ∧ v < h + N ∧ v % N = i := by
  have cell := Nat.mod_lt h (show N > 0 by omega)
  have lap := Nat.div_add_mod h N
  by_cases ahead : h % N ≤ i
  · refine ⟨N * (h / N) + i, by omega, by omega, ?_⟩
    rw [Nat.mul_add_mod, Nat.mod_eq_of_lt node]
  · refine ⟨N * (h / N) + (i + N), by omega, by omega, ?_⟩
    rw [Nat.mul_add_mod, Nat.add_mod_right, Nat.mod_eq_of_lt node]

section Calls

variable {N ns h t : Nat} {s s' : Caller}

theorem free_clear_iff (between : Between N ns s h t) :
    FreeClear s.sq.head ↔ Tokens N ns s.sq.head.nodes TOKEN_NO_DATA t (h + N) := by
  have shape := between.shape
  have reserve := shape.reserve
  have count := shape.count
  have le := layout_le between.stored
  unfold FreeClear
  rw [between.head_at, between.tail_at]
  constructor
  · intro clear v lower upper
    have node := Nat.mod_lt v (show N > 0 by omega)
    rw [← node_at shape]
    exact clear (v % N) (by omega) (not_in_range le lower upper)
  · intro tokens i inside outside
    obtain ⟨v, lower, upper, rfl⟩ := position_of (N := N) h (i := i) (by omega)
    rw [node_at shape]
    refine tokens v ?_ upper
    by_contra live
    exact outside (in_range lower (by omega) between.near)

theorem tokens_turn {m : Mem UInt8} {token a b : Nat} (tokens : Tokens N ns m token a b) :
    Tokens N ns m token (a + N) (b + N) := by
  intro v lower upper
  have token := tokens (v - N) (by omega) (by omega)
  rwa [nodeCell, ← Nat.mod_eq_sub_mod (by omega)] at token

theorem tokens_join {m : Mem UInt8} {token a b c : Nat} (left : Tokens N ns m token a b)
    (right : Tokens N ns m token b c) : Tokens N ns m token a c := by
  intro v lower upper
  by_cases before : v < b
  · exact left v lower before
  · exact right v (by omega) upper

/-- Only a short read leaves a token behind. -/
theorem effect_clears {c : Call} {h' t' : Nat} (between : Between N ns s h t)
    (clear : FreeClear s.sq.head) (effect : Effect N ns s h t c s' h' t') :
    FreeClear s'.sq.head ↔ ∀ buf_sz, c = .get buf_sz → ¬ ShortRead s buf_sz := by
  have kept := effect_keeps between effect
  have wide := between.shape.wide
  have near := between.near
  have tokens := (free_clear_iff between).mp clear
  rw [free_clear_iff kept]
  cases effect with
  | nothing ring pending legal =>
    rw [ring]
    exact iff_of_true tokens legal
  | put now data datalen p m low high room reserved ring pending entry rest =>
    rw [ring]
    refine iff_of_true ?_ (fun _ absurd => nomatch absurd)
    apply tokens_agree wide (rest _ _ (apart_above (Nat.le_refl _) _))
    · intro v lower upper
      have after := entry.placed.after
      exact tokens v (by omega) upper
    · have after := entry.placed.after
      have le := layout_le between.stored
      omega
  | taken buf_sz msg later p m front legal fits entry behind ring pending cleared rest =>
    rw [ring]
    refine iff_of_true ?_ ?_
    · have after := entry.placed.after
      have present := layout_le behind
      have old := tokens_agree wide (rest t (h + N) (apart_above present (by omega))) tokens
      exact tokens_join old (tokens_turn cleared)
    · rintro _ ⟨⟩ ⟨_, msg', first, short⟩
      rw [front] at first
      cases first
      omega
  | dropped buf_sz msg later p front legal short entry behind ring pending =>
    rw [ring]
    refine iff_of_false ?_ ?_
    · intro clean
      have after := entry.placed.after
      have some_node := need_pos wide msg.1.toNat
      have token := clean (p + N) (by omega) (by unfold span; omega)
      rw [nodeCell, Nat.add_mod_right] at token
      have data := entry.block.token
      rw [nodeCell] at data
      rw [data] at token
      exact absurd token (by decide)
    · intro harmless
      exact harmless buf_sz rfl ⟨legal, msg, by rw [front]; rfl, short⟩

end Calls

/-- No call of the list is a short read in the state it is made in. -/
def NoShortRead (cs : List Call) (s : Caller) : Prop :=
  ∀ n buf_sz s', Ints.performAll (cs.take n) s = some s' → cs[n]? = some (.get buf_sz) →
    ¬ ShortRead s' buf_sz

theorem clear_iff_no_short_read {N ns h t : Nat} {s : Caller} (between : Between N ns s h t)
    (small : N ≤ 2 ^ 30) (clear : FreeClear s.sq.head) (cs : List Call) :
    (∀ n s', Ints.performAll (cs.take n) s = some s' → FreeClear s'.sq.head) ↔
      NoShortRead cs s := by
  induction cs generalizing s h t with
  | nil =>
    constructor
    · intro _ n buf_sz s' _ call
      cases call
    · intro _ n s' run
      rw [List.take_nil] at run
      cases run
      exact clear
  | cons c rest ih =>
    obtain ⟨next, h', t', done, effect⟩ := perform_effect between c
    have one := effect_clears between clear effect
    have unfold_run : ∀ n s', Ints.performAll ((c :: rest).take (n + 1)) s = some s' ↔
        Ints.performAll (rest.take n) next = some s' := by
      intro n s'
      rw [List.take_succ_cons, Ints.performAll, perform_fits between small, done,
        Option.bind_some]
    constructor
    · intro always
      have after := always 1 next ((unfold_run 0 next).mpr rfl)
      have later := (ih (effect_keeps between effect) after).mp
        fun n s' run => always (n + 1) s' ((unfold_run n s').mpr run)
      intro n buf_sz s' run call
      cases n with
      | zero =>
        cases run
        exact one.mp after buf_sz (Option.some.inj call)
      | succ n => exact later n buf_sz s' ((unfold_run n s').mp run) call
    · intro harmless
      have after := one.mpr fun buf_sz call => harmless 0 buf_sz s rfl (by rw [call]; rfl)
      have later := (ih (effect_keeps between effect) after).mpr
        fun n buf_sz s' run call => harmless (n + 1) buf_sz s' ((unfold_run n s').mpr run) call
      intro n s' run
      cases n with
      | zero =>
        cases run
        exact clear
      | succ n => exact later n s' ((unfold_run n s').mp run)

/-- Every run of puts and gets returns, and all nodes outside the live region are without
    a token after each of its calls just when no get comes with too small a buffer. -/
theorem free_nodes_are_clear_iff {sq : Handle} (fresh : Fresh sq)
    (small : sq.head.ele_count < 2 ^ 30) (cs : List Call) :
    (∃ s, Ints.performAll cs ⟨sq, []⟩ = some s) ∧
    ((∀ n s, Ints.performAll (cs.take n) ⟨sq, []⟩ = some s → FreeClear s.sq.head) ↔
      NoShortRead cs ⟨sq, []⟩) := by
  have between := between_start fresh
  have few : sq.head.ele_count.toNat + 1 ≤ 2 ^ 30 := by omega
  obtain ⟨s, _, _, run, _⟩ := perform_all_between between cs
  refine ⟨⟨s, (perform_all_fits between few cs).trans run⟩,
    clear_iff_no_short_read between few ?_ cs⟩
  intro i _ _
  rw [fresh.nodes]
  rfl

theorem two_puts_and_a_get :
    (∃ s, Ints.performAll [.put ⟨0, 0⟩ (fun _ => 1) 40, .put ⟨0, 0⟩ (fun _ => 2) 9, .get 40]
      ⟨smallQueue, []⟩ = some s) ∧
    ((∀ n s, Ints.performAll ([.put ⟨0, 0⟩ (fun _ => 1) 40, .put ⟨0, 0⟩ (fun _ => 2) 9,
        .get 40].take n) ⟨smallQueue, []⟩ = some s → FreeClear s.sq.head) ↔
      NoShortRead [.put ⟨0, 0⟩ (fun _ => 1) 40, .put ⟨0, 0⟩ (fun _ => 2) 9, .get 40]
        ⟨smallQueue, []⟩) :=
  free_nodes_are_clear_iff small_queue_fresh (by decide) _

/-- The message of 40 bytes is dropped, and its first node keeps TOKEN_HAS_DATA. -/
theorem short_read_leaves_token :
    sqCreate 1 8 201 = .ok smallQueue ∧
    ∃ s, Ints.performAll [.put ⟨0, 0⟩ (fun _ => 1) 40, .get 8] ⟨smallQueue, []⟩ = some s ∧
      ¬ FreeClear s.sq.head := by
  have ends : (Ints.performAll [.put ⟨0, 0⟩ (fun _ => 1) 40, .get 8] ⟨smallQueue, []⟩).any
      (fun s => s.sq.head.ele_count = 201 ∧ ¬ InRange s.sq.head.head_pos s.sq.head.tail_pos 0 ∧
        startToken s.sq.head.nodes (nodeAt s.sq.head 0) = TOKEN_HAS_DATA) = true := by
    decide +kernel
  obtain ⟨s, run, stale⟩ := (Option.any_eq_true _ _).mp ends
  obtain ⟨count, outside, token⟩ := of_decide_eq_true stale
  refine ⟨rfl, s, run, ?_⟩
  intro clear
  have none_there := clear 0 (by rw [count]; decide) outside
  rw [Nat.cast_zero, token] at none_there
  exact absurd none_there (by decide)

end UC.ShmQueue
