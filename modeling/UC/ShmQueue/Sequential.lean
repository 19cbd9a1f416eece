import UC.ShmQueue.Fifo

/- What one call does when the queue has a single caller, who may pass any length and any
   buffer size. A get with a buffer too small for the next message drops the message. -/
namespace UC.ShmQueue
open UC.Memory UC.NodeRing

structure Caller where
  sq : Handle
  pending : List Message

def perform (s : Caller) : Call → Option Caller
  | .put now data datalen =>
    (sqPut s.sq now data datalen).map fun (sq, ret) =>
      ⟨sq, if ret = 0 then s.pending ++ [(datalen, slice data 0 datalen.toNat)] else s.pending⟩
  | .get buf_sz =>
    (sqGet s.sq buf_sz).map fun (sq, _) =>
      ⟨sq, if 1 ≤ buf_sz then s.pending.tail else s.pending⟩

def performAll : List Call → Caller → Option Caller
  | [], s => some s
  | c :: rest, s => (perform s c).bind (performAll rest)

/-- The calls in the int of the source. -/
def Ints.perform (s : Caller) : Call → Option Caller
  | .put now data datalen =>
    (Ints.sqPut s.sq now data datalen).map fun (sq, ret) =>
      ⟨sq, if ret = 0 then s.pending ++ [(datalen, slice data 0 datalen.toNat)] else s.pending⟩
  | .get buf_sz =>
    (Ints.sqGet s.sq buf_sz).map fun (sq, _) =>
      ⟨sq, if 1 ≤ buf_sz then s.pending.tail else s.pending⟩

def Ints.performAll : List Call → Caller → Option Caller
  | [], s => some s
  | c :: rest, s => (Ints.perform s c).bind (Ints.performAll rest)

/-- A legal get whose buffer is too small for the next message. -/
def ShortRead (s : Caller) (buf_sz : Int) : Prop :=
  1 ≤ buf_sz ∧ ∃ msg ∈ s.pending.head?, buf_sz < msg.1

/-- The nodes of the positions h .. t - 1 carry the pending messages. -/
structure Between (N ns : Nat) (s : Caller) (h t : Nat) : Prop where
  shape : Shape s.sq.head N ns
  head_at : s.sq.head.head_pos = (h % N : Nat)
  tail_at : s.sq.head.tail_pos = (t % N : Nat)
  near : t < h + N
  stored : Layout N ns s.sq.head.nodes s.pending h t

/-- All that a call can do: nothing to the ring; put a message behind the others; take the
    first message out and clear its nodes; take it out and leave its nodes. -/
inductive Effect (N ns : Nat) (s : Caller) (h t : Nat) : Call → Caller → Nat → Nat → Prop
  | nothing {c s'} (ring : s'.sq.head = s.sq.head) (pending : s'.pending = s.pending)
      (legal : ∀ buf_sz, c = .get buf_sz → ¬ ShortRead s buf_sz) : Effect N ns s h t c s' h t
  | put {s'} (now data datalen p m) (low : 1 ≤ datalen) (high : datalen ≤ MAX_SQ_DATA_LENGTH)
      (room : p + need ns datalen.toNat < h + N)
      (reserved : reserve s.sq.head datalen =
        some ⟨(p % N : Nat), (t % N : Nat), ((p + need ns datalen.toNat) % N : Nat)⟩)
      (ring : s'.sq.head = { s.sq.head with
        tail_pos := ((p + need ns datalen.toNat) % N : Nat), nodes := m })
      (pending : s'.pending = s.pending ++ [(datalen, slice data 0 datalen.toNat)])
      (entry : Entry N ns m t p (datalen, slice data 0 datalen.toNat))
      (rest : ∀ c d, Apart N t (p + need ns datalen.toNat) c d →
        Agree N ns s.sq.head.nodes m c d) :
      Effect N ns s h t (.put now data datalen) s' h (p + need ns datalen.toNat)
  | taken {s'} (buf_sz msg later p m) (front : s.pending = msg :: later)
      (legal : 1 ≤ buf_sz) (fits : msg.1 ≤ buf_sz)
      (entry : Entry N ns s.sq.head.nodes h p msg)
      (behind : Layout N ns s.sq.head.nodes later (p + span ns msg) t)
      (ring : s'.sq.head = { s.sq.head with
        head_pos := ((p + span ns msg) % N : Nat), nodes := m })
      (pending : s'.pending = later)
      (cleared : Tokens N ns m TOKEN_NO_DATA h (p + span ns msg))
      (rest : ∀ c d, Apart N h (p + span ns msg) c d → Agree N ns s.sq.head.nodes m c d) :
      Effect N ns s h t (.get buf_sz) s' (p + span ns msg) t
  | dropped {s'} (buf_sz msg later p) (front : s.pending = msg :: later)
      (legal : 1 ≤ buf_sz) (short : buf_sz < msg.1)
      (entry : Entry N ns s.sq.head.nodes h p msg)
      (behind : Layout N ns s.sq.head.nodes later (p + span ns msg) t)
      (ring : s'.sq.head = { s.sq.head with head_pos := ((p + span ns msg) % N : Nat) })
      (pending : s'.pending = later) :
      Effect N ns s h t (.get buf_sz) s' (p + span ns msg) t

section Calls

variable {N ns h t : Nat} {s : Caller}

theorem put_effect (between : Between N ns s h t) (now : Timeval) (data : Mem UInt8)
    (datalen : Int) :
    ∃ sq ret s' t', sqPut s.sq now data datalen = some (sq, ret) ∧
      perform s (.put now data datalen) = some s' ∧ s'.sq = sq ∧
      Effect N ns s h t (.put now data datalen) s' h t' ∧ (ret = 0 → t < t') := by
  by_cases bad : datalen ≤ 0 ∨ datalen > MAX_SQ_DATA_LENGTH
  · have refused : sqPut s.sq now data datalen =
        some ({ s.sq with errmsg := "Bad argument" }, -1) := if_pos bad
    refine ⟨_, _, ⟨{ s.sq with errmsg := "Bad argument" }, s.pending⟩, t, refused, ?_, rfl,
      .nothing rfl rfl ?_, ?_⟩
    · rw [perform, refused]
      rfl
    · intro buf_sz absurd
      cases absurd
    · intro absurd
      cases absurd
  have low : 1 ≤ datalen := by omega
  have high : datalen ≤ MAX_SQ_DATA_LENGTH := by omega
  cases room : reserve s.sq.head datalen with
  | none =>
    have refused : sqPut s.sq now data datalen =
        some ({ s.sq with errmsg := "Not enough for new data" }, -2) := by
      simp only [sqPut, bad, ↓reduceIte, room]
    refine ⟨_, _, ⟨{ s.sq with errmsg := "Not enough for new data" }, s.pending⟩, t, refused, ?_,
      rfl, .nothing rfl rfl ?_, ?_⟩
    · rw [perform, refused]
      rfl
    · intro buf_sz absurd
      cases absurd
    · intro absurd
      cases absurd
  | some r =>
    obtain ⟨p, placed, near, range⟩ := reserve_spec between.shape (layout_le between.stored)
      between.near between.head_at between.tail_at low high room
    have moved : Shape { s.sq.head with tail_pos := r.new_tail } N ns :=
      shape_of_counts between.shape rfl rfl
    obtain ⟨m, written, entry, rest⟩ := publish_spec moved low high placed r.new_tail now data
    have reservation : r = ⟨(p % N : Nat), (t % N : Nat), r.new_tail⟩ := by rw [range]
    rw [← reservation] at written
    have done : sqPut s.sq now data datalen =
        some ({ s.sq with head := { s.sq.head with tail_pos := r.new_tail, nodes := m } }, 0) := by
      simp only [sqPut, bad, ↓reduceIte, room, written, Option.map_some]
    refine ⟨_, _, ⟨_, s.pending ++ [(datalen, slice data 0 datalen.toNat)]⟩, _, done, ?_, rfl,
      .put now data datalen p m low high near ?_ ?_ rfl entry rest, ?_⟩
    · rw [perform, done]
      rfl
    · rw [room, range]
    · rw [range]
    · intro _
      have some_node := need_pos between.shape.wide datalen.toNat
      have after := placed.after
      omega

theorem perform_get {sq : Handle} {got : Got} {buf_sz : Int} (legal : 1 ≤ buf_sz)
    (done : sqGet s.sq buf_sz = some (sq, got)) :
    perform s (.get buf_sz) = some ⟨sq, s.pending.tail⟩ := by
  rw [perform, done, if_pos legal]
  rfl

theorem get_effect (between : Between N ns s h t) (buf_sz : Int) :
    ∃ s' h', perform s (.get buf_sz) = some s' ∧ Effect N ns s h t (.get buf_sz) s' h' t := by
  by_cases bad : buf_sz < 1
  · have refused : sqGet s.sq buf_sz =
        some ({ s.sq with errmsg := "Bad argument" }, ⟨-1, [], none⟩) := if_pos bad
    refine ⟨⟨{ s.sq with errmsg := "Bad argument" }, s.pending⟩, h, ?_, .nothing rfl rfl ?_⟩
    · rw [perform, refused, if_neg (by omega)]
      rfl
    · rintro _ ⟨⟩ short
      exact absurd short.1 (by omega)
  have legal : 1 ≤ buf_sz := by omega
  cases pending : s.pending with
  | nil =>
    have stored := between.stored
    rw [pending] at stored
    cases stored
    have empty : s.sq.head.tail_pos = s.sq.head.head_pos :=
      between.tail_at.trans between.head_at.symm
    have done : sqGet s.sq buf_sz = some ({ s.sq with rw_conflict := 0 }, ⟨0, [], none⟩) :=
      get_run legal (claim_drained between.shape empty) rfl
    refine ⟨_, h, perform_get legal done, .nothing rfl ?_ ?_⟩
    · rw [pending]
      rfl
    · rintro _ ⟨⟩ ⟨_, msg, front, _⟩
      rw [pending] at front
      cases front
  | cons msg later =>
    have stored := between.stored
    rw [pending] at stored
    obtain ⟨p, entry, behind⟩ := stored
    have present := layout_le behind
    have near := between.near
    have claimed := claim_message between.shape entry between.head_at between.tail_at present near
    have moved : Shape { s.sq.head with head_pos := ((p + span ns msg) % N : Nat) } N ns :=
      shape_of_counts between.shape rfl rfl
    by_cases short : buf_sz < msg.1
    · obtain ⟨text, got, finished⟩ := finish_short
        { s.sq with head := { s.sq.head with head_pos := ((p + span ns msg) % N : Nat) } }
        (h % N : Nat) (p % N : Nat) ((p + span ns msg) % N : Nat) short
      have done := get_run legal claimed finished
      exact ⟨_, _, perform_get legal done, .dropped buf_sz msg later p pending legal short entry
        behind rfl (congrArg List.tail pending)⟩
    · obtain ⟨m, time, finished, cleared, rest⟩ :=
        @finish_message N ns ⟨_, s.sq.rw_conflict, s.sq.errmsg⟩ moved h p msg entry buf_sz
          (by omega) (by omega)
      have done := get_run legal claimed finished
      exact ⟨_, _, perform_get legal done, .taken buf_sz msg later p m pending legal (by omega)
        entry behind rfl (congrArg List.tail pending) cleared rest⟩

theorem effect_keeps {s' : Caller} {c : Call} {h' t' : Nat} (between : Between N ns s h t)
    (effect : Effect N ns s h t c s' h' t') : Between N ns s' h' t' := by
  have wide := between.shape.wide
  have stored := between.stored
  have le := layout_le stored
  have near := between.near
  cases effect with
  | nothing ring pending legal =>
    exact ⟨ring ▸ between.shape, ring ▸ between.head_at, ring ▸ between.tail_at, near,
      by rw [ring, pending]; exact stored⟩
  | put now data datalen p m low high room reserved ring pending entry rest =>
    have after := entry.placed.after
    have kept := layout_agree wide (rest h t (apart_below (Nat.le_refl t) (by omega))) stored
    constructor
    · exact shape_of_counts between.shape (by rw [ring]) (by rw [ring])
    · rw [ring]
      exact between.head_at
    · rw [ring]
    · exact room
    · rw [ring, pending]
      exact layout_push kept entry
  | taken buf_sz msg later p m front legal fits entry behind ring pending cleared rest =>
    have after := entry.placed.after
    have present := layout_le behind
    constructor
    · exact shape_of_counts between.shape (by rw [ring]) (by rw [ring])
    · rw [ring]
    · rw [ring]
      exact between.tail_at
    · omega
    · rw [ring, pending]
      exact layout_agree wide (rest _ t (apart_above (Nat.le_refl _) (by omega))) behind
  | dropped buf_sz msg later p front legal short entry behind ring pending =>
    have after := entry.placed.after
    have present := layout_le behind
    constructor
    · exact shape_of_counts between.shape (by rw [ring]) (by rw [ring])
    · rw [ring]
    · rw [ring]
      exact between.tail_at
    · omega
    · rw [ring, pending]
      exact behind

theorem perform_effect (between : Between N ns s h t) (c : Call) :
    ∃ s' h' t', perform s c = some s' ∧ Effect N ns s h t c s' h' t' := by
  cases c with
  | put now data datalen =>
    obtain ⟨_, _, s', t', _, done, _, effect, _⟩ := put_effect between now data datalen
    exact ⟨s', h, t', done, effect⟩
  | get buf_sz =>
    obtain ⟨s', h', done, effect⟩ := get_effect between buf_sz
    exact ⟨s', h', t, done, effect⟩

end Calls

section Ints

variable {N ns h t : Nat} {s : Caller}

theorem between_ints (between : Between N ns s h t) (small : N ≤ 2 ^ 30) :
    Ints.Small s.sq.head ∧ Ints.IsNode s.sq.head s.sq.head.head_pos ∧
      Ints.IsNode s.sq.head s.sq.head.tail_pos := by
  have shape := between.shape
  refine ⟨Ints.small_ring shape small, ?_, ?_⟩
  · rw [between.head_at]
    exact Ints.node_of_position shape h
  · rw [between.tail_at]
    exact Ints.node_of_position shape t

theorem put_fits (between : Between N ns s h t) (small : N ≤ 2 ^ 30) (now : Timeval)
    (data : Mem UInt8) (datalen : Int) :
    Ints.sqPut s.sq now data datalen = sqPut s.sq now data datalen := by
  obtain ⟨few, head, tail⟩ := between_ints between small
  exact Ints.sq_put_fits (Ints.needed_small between.shape) few head tail now data datalen

theorem perform_fits (between : Between N ns s h t) (small : N ≤ 2 ^ 30) (c : Call) :
    Ints.perform s c = perform s c := by
  cases c with
  | put now data datalen => simp only [Ints.perform, perform, put_fits between small]
  | get buf_sz =>
    obtain ⟨few, head, tail⟩ := between_ints between small
    simp only [Ints.perform, perform, Ints.sq_get_fits few head tail]

theorem perform_all_fits (between : Between N ns s h t) (small : N ≤ 2 ^ 30) (cs : List Call) :
    Ints.performAll cs s = performAll cs s := by
  induction cs generalizing s h t with
  | nil => rfl
  | cons c rest ih =>
    obtain ⟨s', h', t', done, effect⟩ := perform_effect between c
    rw [Ints.performAll, performAll, perform_fits between small, done, Option.bind_some,
      Option.bind_some]
    exact ih (effect_keeps between effect)

end Ints

theorem between_start {sq : Handle} (fresh : Fresh sq) :
    Between (sq.head.ele_count.toNat + 1) (nodeSize sq.head) ⟨sq, []⟩ 0 0 := by
  have inv := inv_start fresh
  exact ⟨inv.shape, inv.head_at, inv.tail_at, inv.near, rfl⟩

theorem perform_all_between {N ns h t : Nat} {s : Caller} (between : Between N ns s h t)
    (cs : List Call) : ∃ s' h' t', performAll cs s = some s' ∧ Between N ns s' h' t' := by
  induction cs generalizing s h t with
  | nil => exact ⟨s, h, t, rfl, between⟩
  | cons c rest ih =>
    obtain ⟨s', h', t', done, effect⟩ := perform_effect between c
    obtain ⟨s'', h'', t'', later, last⟩ := ih (effect_keeps between effect)
    refine ⟨s'', h'', t'', ?_, last⟩
    rw [performAll, done]
    exact later

end UC.ShmQueue
