import UC.ShmQueue.Interleaving

/- The queue used by one caller: each call is the two steps of its party, taken at once
   while the other party is idle. -/
namespace UC.ShmQueue
open UC.Memory UC.NodeRing

/-- The queue and the messages put and got so far. -/
structure Log where
  sq : Handle
  accepted : List Message
  received : List Message

inductive Call where
  | put (now : Timeval) (data : Mem UInt8) (datalen : Int)
  | get (buf_sz : Int)

def Call.Legal : Call → Prop
  | .put _ _ datalen => 1 ≤ datalen ∧ datalen ≤ MAX_SQ_DATA_LENGTH
  | .get buf_sz => MAX_SQ_DATA_LENGTH ≤ buf_sz

instance : (c : Call) → Decidable c.Legal
  | .put .. => inferInstanceAs (Decidable (_ ∧ _))
  | .get _ => inferInstanceAs (Decidable (_ ≤ _))

def call (s : Log) : Call → Option Log
  | .put now data datalen =>
    (sqPut s.sq now data datalen).map fun (sq, ret) =>
      ⟨sq, if ret = 0 then s.accepted ++ [(datalen, slice data 0 datalen.toNat)] else s.accepted,
        s.received⟩
  | .get buf_sz =>
    (sqGet s.sq buf_sz).map fun (sq, got) => ⟨sq, s.accepted, s.received ++ got.messages⟩

def calls : List Call → Log → Option Log
  | [], s => some s
  | c :: rest, s => (call s c).bind (calls rest)

def atRest (s : Log) : Parties := ⟨s.sq, .idle, .idle, s.accepted, s.received⟩

/-- Between two calls the messages not yet got are in the ring. -/
structure Resting (N ns : Nat) (s : Log) (h t : Nat) (msgs : List Message) : Prop where
  inv : Inv N ns (atRest s) h h t t [] msgs
  calm : s.sq.rw_conflict = 0

theorem resting_start {sq : Handle} (fresh : Fresh sq) :
    Resting (sq.head.ele_count.toNat + 1) (nodeSize sq.head) ⟨sq, [], []⟩ 0 0 [] :=
  ⟨inv_start fresh, fresh.rw_conflict⟩

section Calls

variable {N ns h t : Nat} {msgs : List Message} {s : Log}

/-- The error text is the only thing a refused put writes. -/
theorem resting_errmsg (rest : Resting N ns s h t msgs) (text : String) :
    Resting N ns ⟨{ s.sq with errmsg := text }, s.accepted, s.received⟩ h t msgs := by
  obtain ⟨inv, calm⟩ := rest
  constructor
  · exact inv_same_queue inv rfl inv.writer inv.reader inv.history
  · exact calm

theorem put_resting (rest : Resting N ns s h t msgs) {now : Timeval} {data : Mem UInt8}
    {datalen : Int} (low : 1 ≤ datalen) (high : datalen ≤ MAX_SQ_DATA_LENGTH) :
    ∃ s', call s (.put now data datalen) = some s' ∧
      ∃ t' msgs', Resting N ns s' h t' msgs' := by
  have accepted : ¬ (datalen ≤ 0 ∨ datalen > MAX_SQ_DATA_LENGTH) := by omega
  cases room : reserve s.sq.head datalen with
  | none =>
    refine ⟨_, ?_, t, msgs, resting_errmsg rest "Not enough for new data"⟩
    simp only [call, sqPut, accepted, ↓reduceIte, room, Option.map_some]
    rfl
  | some r =>
    have reserving : step (atRest s) (.reserve now data datalen) = some
        { atRest s with
          sq := { s.sq with head := { s.sq.head with tail_pos := r.new_tail } }
          writer := .reserved r now data datalen } := by
      simp only [step, atRest, accepted, ↓reduceIte, room, Option.map_some]
    obtain ⟨t', inv⟩ := inv_reserve rest.inv reserving
    obtain ⟨_, _, p, placed, _, range⟩ := inv.writer
    obtain ⟨m, written, _⟩ := publish_spec inv.shape low high placed r.new_tail now data
    have reservation : r = ⟨(p % N : Nat), (t % N : Nat), r.new_tail⟩ := by rw [range]
    rw [← reservation] at written
    have publishing : step { atRest s with
          sq := { s.sq with head := { s.sq.head with tail_pos := r.new_tail } }
          writer := .reserved r now data datalen } .publish = some
        (atRest ⟨{ s.sq with head := { s.sq.head with tail_pos := r.new_tail, nodes := m } },
          s.accepted ++ [(datalen, slice data 0 datalen.toNat)], s.received⟩) := by
      simp only [step, written, Option.map_some]
      rfl
    obtain ⟨msg, inv⟩ := inv_publish inv trivial publishing
    refine ⟨_, ?_, t', msgs ++ [msg], inv, rest.calm⟩
    simp only [call, sqPut, accepted, ↓reduceIte, room, written, Option.map_some]

theorem sq_get_spec (rest : Resting N ns s h t msgs) {buf_sz : Int}
    (large : MAX_SQ_DATA_LENGTH ≤ buf_sz) :
    ∃ claimed c sq got, claim s.sq = some (claimed, c) ∧ finish claimed buf_sz c = some (sq, got) ∧
      sq.rw_conflict = 0 ∧ 0 ≤ got.ret ∧ (got.ret = 0 ↔ msgs = []) := by
  have inv := rest.inv
  have stored := inv.stored
  cases msgs with
  | nil =>
    cases stored
    have empty : s.sq.head.tail_pos = s.sq.head.head_pos := inv.tail_at.trans inv.head_at.symm
    exact ⟨_, _, _, _, claim_drained inv.shape empty, rfl, rfl, Int.le_refl 0,
      iff_of_true rfl rfl⟩
  | cons msg later =>
    obtain ⟨p, entry, behind⟩ := stored
    have low := entry.block.low
    have present := layout_le behind
    have near := inv.near
    have after := entry.placed.after
    have claimed := claim_message inv.shape entry inv.head_at inv.tail_at present near
    have moved : Shape { s.sq.head with head_pos := ((p + span ns msg) % N : Nat) } N ns :=
      shape_of_counts inv.shape rfl rfl
    obtain ⟨m, time, finished, _⟩ :=
      @finish_message N ns ⟨_, s.sq.rw_conflict, s.sq.errmsg⟩ moved h p msg entry buf_sz
        (entry.block.high.trans large) (by omega)
    refine ⟨_, _, _, _, claimed, finished, rfl, ?_, ?_⟩
    · dsimp only
      omega
    · exact iff_of_false (show msg.1 ≠ 0 by omega) (List.cons_ne_nil msg later)

theorem get_resting (rest : Resting N ns s h t msgs) {buf_sz : Int}
    (large : MAX_SQ_DATA_LENGTH ≤ buf_sz) :
    ∃ sq got, sqGet s.sq buf_sz = some (sq, got) ∧ 0 ≤ got.ret ∧ (got.ret = 0 ↔ msgs = []) ∧
      ∃ h' msgs', Resting N ns ⟨sq, s.accepted, s.received ++ got.messages⟩ h' t msgs' := by
  obtain ⟨claimed, c, sq, got, taken, finished, calm, sign, empty⟩ := sq_get_spec rest large
  have good : ¬ buf_sz < 1 := by
    unfold MAX_SQ_DATA_LENGTH at large
    omega
  have patient : ¬ GivesUp s.sq := by
    rintro ⟨many, _⟩
    rw [rest.calm] at many
    exact absurd many (by decide)
  have claiming : step (atRest s) (.claim buf_sz) =
      some { atRest s with sq := claimed, reader := .claimed c buf_sz } := by
    simp only [step, atRest, taken, Option.map_some]
  have finishing : step { atRest s with sq := claimed, reader := .claimed c buf_sz } .finish =
      some (atRest ⟨sq, s.accepted, s.received ++ got.messages⟩) := by
    simp only [step, atRest, finished, Option.map_some]
  obtain ⟨h', held', msgs', inv⟩ := inv_claim rest.inv ⟨large, patient⟩ claiming
  refine ⟨sq, got, ?_, sign, empty, h', msgs', inv_finish inv finishing, calm⟩
  simp only [sqGet, good, ↓reduceIte, taken, Option.bind_some, finished]

end Calls

theorem calls_resting {N ns h t : Nat} {msgs : List Message} {s : Log}
    (rest : Resting N ns s h t msgs) (cs : List Call) (legal : ∀ c ∈ cs, c.Legal) :
    ∃ s', calls cs s = some s' ∧ ∃ h' t' msgs', Resting N ns s' h' t' msgs' := by
  induction cs generalizing h t msgs s with
  | nil => exact ⟨s, rfl, h, t, msgs, rest⟩
  | cons c later ih =>
    have first := legal c List.mem_cons_self
    have others := fun c' mem => legal c' (List.mem_cons_of_mem c mem)
    have one : ∃ s', call s c = some s' ∧ ∃ h' t' msgs', Resting N ns s' h' t' msgs' := by
      cases c with
      | put now data datalen =>
        obtain ⟨s', done, t', msgs', rest⟩ := put_resting rest first.1 first.2
        exact ⟨s', done, h, t', msgs', rest⟩
      | get buf_sz =>
        obtain ⟨sq, got, done, _, _, h', msgs', rest⟩ := get_resting rest first
        refine ⟨_, ?_, h', t, msgs', rest⟩
        simp only [call, done, Option.map_some]
    obtain ⟨s', done, h', t', msgs', rest⟩ := one
    simp only [calls, done, Option.bind_some]
    exact ih rest others

/-- Every run of puts and gets returns, the messages got are the first ones put, and a get
    comes back empty exactly when all of them have been got. -/
theorem sequential_puts_and_gets_are_fifo (sq : Handle) (fresh : Fresh sq) (cs : List Call)
    (legal : ∀ c ∈ cs, c.Legal) :
    ∃ s, calls cs ⟨sq, [], []⟩ = some s ∧ s.received <+: s.accepted ∧
      ∀ buf_sz, MAX_SQ_DATA_LENGTH ≤ buf_sz →
        ∃ sq' got, sqGet s.sq buf_sz = some (sq', got) ∧ 0 ≤ got.ret ∧
          (got.ret = 0 ↔ s.received = s.accepted) ∧
          (0 < got.ret → s.received ++ [(got.ret, got.buf)] <+: s.accepted) := by
  obtain ⟨s, done, h, t, msgs, rest⟩ := calls_resting (resting_start fresh) cs legal
  have history : s.accepted = s.received ++ msgs := by
    have split := rest.inv.history
    rwa [List.append_nil] at split
  refine ⟨s, done, ⟨msgs, history.symm⟩, ?_⟩
  intro buf_sz large
  obtain ⟨sq', got, result, sign, empty, h', msgs', next⟩ := get_resting rest large
  refine ⟨sq', got, result, sign, ?_, ?_⟩
  · rw [empty, history, List.self_eq_append_right]
  · intro positive
    have split := next.inv.history
    simp only [atRest, Got.messages, if_pos positive, List.append_nil] at split
    exact ⟨msgs', split.symm⟩

theorem small_queue_three_puts_two_gets :
    ∃ s, calls [.put ⟨0, 0⟩ (fun _ => 1) 40, .put ⟨0, 0⟩ (fun _ => 2) 9, .get 65536,
        .put ⟨0, 0⟩ (fun _ => 3) 1, .get 65536] ⟨smallQueue, [], []⟩ = some s ∧
      s.received <+: s.accepted := by
  obtain ⟨s, done, fifo, _⟩ := sequential_puts_and_gets_are_fifo smallQueue small_queue_fresh
    [.put ⟨0, 0⟩ (fun _ => 1) 40, .put ⟨0, 0⟩ (fun _ => 2) 9, .get 65536,
      .put ⟨0, 0⟩ (fun _ => 3) 1, .get 65536] (by decide)
  exact ⟨s, done, fifo⟩

end UC.ShmQueue
