import UC.Lib.Histories
import UC.ShmQueue.Ints

/- One writer and one reader of the queue, each in two steps: reserve and publish, claim
   and finish. A put that finds no room and a get of a bad buffer change nothing and are
   no steps. -/
namespace UC.ShmQueue
open UC.Memory UC.Words UC.NodeRing UC.Runs UC.Histories

/-- A queue as sq_create leaves it. -/
structure Fresh (sq : Handle) : Prop where
  size_pos : 0 < sq.head.ele_size
  size_int : sq.head.ele_size < 2 ^ 31
  count : RESERVE_BLOCK_COUNT < sq.head.ele_count
  head_pos : sq.head.head_pos = 0
  tail_pos : sq.head.tail_pos = 0
  nodes : sq.head.nodes = fun _ => 0
  rw_conflict : sq.rw_conflict = 0

theorem sq_create_fresh {shm_key : Nat} {ele_size ele_count : Int} {sq : Handle}
    (int_size : ele_size ≤ 2 ^ 31 - 8) (created : sqCreate shm_key ele_size ele_count = .ok sq) :
    Fresh sq := by
  unfold sqCreate at created
  split at created
  · split at created <;> cases created
  · next good =>
    cases created
    have size : toInt ((ele_size + 7) / 8 * 8) = (ele_size + 7) / 8 * 8 :=
      to_int (by omega) (by omega)
    constructor
    · dsimp only
      omega
    · dsimp only
      omega
    · dsimp only
      omega
    · rfl
    · rfl
    · rfl
    · rfl

inductive Writer where
  | idle
  | reserved (r : Reservation) (now : Timeval) (data : Mem UInt8) (datalen : Int)

inductive Reader where
  | idle
  | claimed (c : Claim) (buf_sz : Int)

/-- The shared queue under the reader's handle, the two parties, and as history the
    messages of the successful puts and gets. -/
structure Parties where
  sq : Handle
  writer : Writer
  reader : Reader
  sent : List Message
  received : List Message

def start (sq : Handle) : Parties := ⟨sq, .idle, .idle, [], []⟩

inductive Event where
  | reserve (now : Timeval) (data : Mem UInt8) (datalen : Int)
  | publish
  | claim (buf_sz : Int)
  | finish

/-- A get that returns a positive value has received a message. -/
def Got.messages (got : Got) : List Message := if 0 < got.ret then [(got.ret, got.buf)] else []

def step (s : Parties) : Event → Option Parties
  | .reserve now data datalen =>
    match s.writer with
    | .idle =>
      if datalen ≤ 0 ∨ datalen > MAX_SQ_DATA_LENGTH then none
      else
        (reserve s.sq.head datalen).map fun r =>
          { s with
            sq := { s.sq with head := { s.sq.head with tail_pos := r.new_tail } }
            writer := .reserved r now data datalen }
    | .reserved .. => none
  | .publish =>
    match s.writer with
    | .idle => none
    | .reserved r now data datalen =>
      (publish s.sq.head r now data datalen).map fun head =>
        { s with
          sq := { s.sq with head := head }
          writer := .idle
          sent := s.sent ++ [(datalen, slice data 0 datalen.toNat)] }
  | .claim buf_sz =>
    match s.reader with
    | .idle => (claim s.sq).map fun (sq, c) => { s with sq := sq, reader := .claimed c buf_sz }
    | .claimed .. => none
  | .finish =>
    match s.reader with
    | .idle => none
    | .claimed c buf_sz =>
      (finish s.sq buf_sz c).map fun (sq, got) =>
        { s with sq := sq, reader := .idle, received := s.received ++ got.messages }

/-- The steps in the int of the source: none also stands for a sum that overflows. -/
def Ints.step (s : Parties) : Event → Option Parties
  | .reserve now data datalen =>
    match s.writer with
    | .idle =>
      if datalen ≤ 0 ∨ datalen > MAX_SQ_DATA_LENGTH then none
      else
        (Ints.reserve s.sq.head datalen).bind fun room =>
          room.map fun r =>
            { s with
              sq := { s.sq with head := { s.sq.head with tail_pos := r.new_tail } }
              writer := .reserved r now data datalen }
    | .reserved .. => none
  | .publish =>
    match s.writer with
    | .idle => none
    | .reserved r now data datalen =>
      (Ints.publish s.sq.head r now data datalen).map fun head =>
        { s with
          sq := { s.sq with head := head }
          writer := .idle
          sent := s.sent ++ [(datalen, slice data 0 datalen.toNat)] }
  | .claim buf_sz =>
    match s.reader with
    | .idle =>
      (Ints.claim s.sq).map fun (sq, c) => { s with sq := sq, reader := .claimed c buf_sz }
    | .claimed .. => none
  | .finish =>
    match s.reader with
    | .idle => none
    | .claimed c buf_sz =>
      (Ints.finish s.sq buf_sz c).map fun (sq, got) =>
        { s with sq := sq, reader := .idle, received := s.received ++ got.messages }

/-- A claim by a reader whose patience is used up, at a node still being written. -/
def GivesUp (sq : Handle) : Prop :=
  SQ_MAX_CONFLICT_TRIES ≤ sq.rw_conflict ∧
    scan sq.head 0 (turn sq.head) sq.head.head_pos = some .busy

instance (sq : Handle) : Decidable (GivesUp sq) := inferInstanceAs (Decidable (_ ∧ _))

def Allowed (s : Parties) : Event → Prop
  | .claim buf_sz => MAX_SQ_DATA_LENGTH ≤ buf_sz ∧ ¬ GivesUp s.sq
  | _ => True

instance (s : Parties) : (ev : Event) → Decidable (Allowed s ev)
  | .claim _ => inferInstanceAs (Decidable (_ ∧ _))
  | .reserve .. => inferInstanceAs (Decidable True)
  | .publish => inferInstanceAs (Decidable True)
  | .finish => inferInstanceAs (Decidable True)

/-- Node i is one of those from position a up to position b, cyclically. -/
def InRange (a b i : Int) : Prop := if a ≤ b then a ≤ i ∧ i < b else a ≤ i ∨ i < b

instance (a b i : Int) : Decidable (InRange a b i) :=
  inferInstanceAs (Decidable (if a ≤ b then a ≤ i ∧ i < b else a ≤ i ∨ i < b))

def Claim.Covers (i : Int) : Claim → Prop
  | .noData => False
  | .skipped old_head new_head => InRange old_head new_head i
  | .message old_head _ new_head _ => InRange old_head new_head i

instance (i : Int) : (c : Claim) → Decidable (c.Covers i)
  | .noData => inferInstanceAs (Decidable False)
  | .skipped old_head new_head => inferInstanceAs (Decidable (InRange old_head new_head i))
  | .message old_head _ new_head _ => inferInstanceAs (Decidable (InRange old_head new_head i))

/-- The nodes the writer is about to write are none the reader has claimed and not
    finished. -/
def Disjoint (queue : SqHead) : Writer → Reader → Prop
  | .reserved r _ _ _, .claimed c _ =>
    ∀ i < turn queue, InRange r.old_tail r.new_tail i → ¬ c.Covers i
  | _, _ => True

instance (queue : SqHead) : (w : Writer) → (r : Reader) → Decidable (Disjoint queue w r)
  | .reserved r _ _ _, .claimed c _ =>
    inferInstanceAs (Decidable (∀ i < turn queue, InRange r.old_tail r.new_tail i → ¬ c.Covers i))
  | .reserved .., .idle => inferInstanceAs (Decidable True)
  | .idle, _ => inferInstanceAs (Decidable True)

def Undisturbed (s : Parties) : Prop := Disjoint s.sq.head s.writer s.reader

instance (s : Parties) : Decidable (Undisturbed s) :=
  inferInstanceAs (Decidable (Disjoint s.sq.head s.writer s.reader))

def Safe (s : Parties) : Event → Prop
  | .publish => Undisturbed s
  | ev => Allowed s ev

instance (s : Parties) : (ev : Event) → Decidable (Safe s ev)
  | .publish => inferInstanceAs (Decidable (Undisturbed s))
  | .reserve now data datalen => inferInstanceAs (Decidable (Allowed s (.reserve now data datalen)))
  | .claim buf_sz => inferInstanceAs (Decidable (Allowed s (.claim buf_sz)))
  | .finish => inferInstanceAs (Decidable (Allowed s .finish))

/-- The steps among a set of legal ones. -/
def Step (legal : Parties → Event → Prop) (s t : Parties) : Prop :=
  ∃ ev, legal s ev ∧ step s ev = some t

def Ints.Step (legal : Parties → Event → Prop) (s t : Parties) : Prop :=
  ∃ ev, legal s ev ∧ Ints.step s ev = some t

def WriterAt (N ns e t : Nat) : Writer → Prop
  | .idle => e = t
  | .reserved r _ _ datalen => 1 ≤ datalen ∧ datalen ≤ MAX_SQ_DATA_LENGTH ∧
      ∃ s, Placed N e s (need ns datalen.toNat) ∧ t = s + need ns datalen.toNat ∧
        r = ⟨(s % N : Nat), (e % N : Nat), (t % N : Nat)⟩

def ReaderAt (N ns b h : Nat) (held : List Message) : Reader → Prop
  | .idle => held = []
  | .claimed .noData _ => held = []
  | .claimed (.skipped ..) _ => False
  | .claimed c buf_sz => ∃ msg s, held = [msg] ∧ h = s + span ns msg ∧
      c = .message (b % N : Nat) (s % N : Nat) (h % N : Nat) msg.1 ∧ MAX_SQ_DATA_LENGTH ≤ buf_sz

/-- The ring from left to right: b .. h - 1 is claimed and not finished, h .. e - 1 is
    published, e .. t - 1 reserved; from e round to b no token is set. -/
structure Inv (N ns : Nat) (s : Parties) (b h e t : Nat) (held msgs : List Message) : Prop where
  shape : Shape s.sq.head N ns
  head_at : s.sq.head.head_pos = (h % N : Nat)
  tail_at : s.sq.head.tail_pos = (t % N : Nat)
  reserved : e ≤ t
  near : t < h + N
  held_near : h < b + N
  written : e ≤ b + N
  held_at : Layout N ns s.sq.head.nodes held b h
  stored : Layout N ns s.sq.head.nodes msgs h e
  clear : Tokens N ns s.sq.head.nodes TOKEN_NO_DATA e (b + N)
  writer : WriterAt N ns e t s.writer
  reader : ReaderAt N ns b h held s.reader
  history : s.sent = s.received ++ held ++ msgs

theorem inv_same_queue {N ns b h e t : Nat} {s s' : Parties} {held msgs : List Message}
    (inv : Inv N ns s b h e t held msgs) (same : s'.sq.head = s.sq.head)
    (writer : WriterAt N ns e t s'.writer) (reader : ReaderAt N ns b h held s'.reader)
    (history : s'.sent = s'.received ++ held ++ msgs) : Inv N ns s' b h e t held msgs := by
  constructor
  · rw [same]
    exact inv.shape
  · rw [same]
    exact inv.head_at
  · rw [same]
    exact inv.tail_at
  · exact inv.reserved
  · exact inv.near
  · exact inv.held_near
  · exact inv.written
  · rw [same]
    exact inv.held_at
  · rw [same]
    exact inv.stored
  · rw [same]
    exact inv.clear
  · exact writer
  · exact reader
  · exact history

theorem shape_of_bounds {queue : SqHead} (size_pos : 0 < queue.ele_size)
    (size_int : queue.ele_size < 2 ^ 31) (count : RESERVE_BLOCK_COUNT < queue.ele_count) :
    Shape queue (queue.ele_count.toNat + 1) (nodeSize queue) := by
  unfold RESERVE_BLOCK_COUNT at count
  have size : nodeSize queue = (16 + queue.ele_size).toNat :=
    to_size (x := 16 + queue.ele_size) (by omega) (by omega)
  constructor
  · omega
  · omega
  · rfl
  · omega
  · omega

theorem fresh_shape {sq : Handle} (fresh : Fresh sq) :
    Shape sq.head (sq.head.ele_count.toNat + 1) (nodeSize sq.head) :=
  shape_of_bounds fresh.size_pos fresh.size_int fresh.count

theorem inv_start {sq : Handle} (fresh : Fresh sq) :
    Inv (sq.head.ele_count.toNat + 1) (nodeSize sq.head) (start sq) 0 0 0 0 [] [] := by
  constructor
  · exact fresh_shape fresh
  · rw [Nat.zero_mod]
    exact fresh.head_pos
  · rw [Nat.zero_mod]
    exact fresh.tail_pos
  · exact Nat.le_refl 0
  · omega
  · omega
  · omega
  · rfl
  · rfl
  · intro v _ _
    simp only [start, fresh.nodes]
    rfl
  · rfl
  · rfl
  · rfl

section Steps

variable {N ns b h e t : Nat} {held msgs : List Message} {s s' : Parties}

theorem step_reserve {now : Timeval} {data : Mem UInt8} {datalen : Int}
    (next : step s (.reserve now data datalen) = some s') :
    s.writer = .idle ∧ 1 ≤ datalen ∧ datalen ≤ MAX_SQ_DATA_LENGTH ∧
      ∃ r, reserve s.sq.head datalen = some r ∧
        s' = { s with
          sq := { s.sq with head := { s.sq.head with tail_pos := r.new_tail } }
          writer := .reserved r now data datalen } := by
  cases writing : s.writer with
  | reserved r now data datalen => simp only [step, writing, reduceCtorEq] at next
  | idle =>
    simp only [step, writing] at next
    split at next
    · cases next
    · next good =>
      obtain ⟨r, room, rfl⟩ := Option.map_eq_some_iff.mp next
      exact ⟨rfl, by omega, by omega, r, room, rfl⟩

theorem step_publish (next : step s .publish = some s') :
    ∃ r now data datalen head, s.writer = .reserved r now data datalen ∧
      publish s.sq.head r now data datalen = some head ∧
        s' = { s with
          sq := { s.sq with head := head }
          writer := .idle
          sent := s.sent ++ [(datalen, slice data 0 datalen.toNat)] } := by
  cases writing : s.writer with
  | idle => simp only [step, writing, reduceCtorEq] at next
  | reserved r now data datalen =>
    simp only [step, writing] at next
    obtain ⟨head, done, rfl⟩ := Option.map_eq_some_iff.mp next
    exact ⟨r, now, data, datalen, head, rfl, done, rfl⟩

theorem step_claim {buf_sz : Int} (next : step s (.claim buf_sz) = some s') :
    s.reader = .idle ∧ ∃ sq c, claim s.sq = some (sq, c) ∧
      s' = { s with sq := sq, reader := .claimed c buf_sz } := by
  cases reading : s.reader with
  | claimed c buf_sz => simp only [step, reading, reduceCtorEq] at next
  | idle =>
    simp only [step, reading] at next
    obtain ⟨⟨sq, c⟩, done, rfl⟩ := Option.map_eq_some_iff.mp next
    exact ⟨rfl, sq, c, done, rfl⟩

theorem step_finish (next : step s .finish = some s') :
    ∃ c buf_sz sq got, s.reader = .claimed c buf_sz ∧ finish s.sq buf_sz c = some (sq, got) ∧
      s' = { s with sq := sq, reader := .idle, received := s.received ++ got.messages } := by
  cases reading : s.reader with
  | idle => simp only [step, reading, reduceCtorEq] at next
  | claimed c buf_sz =>
    simp only [step, reading] at next
    obtain ⟨⟨sq, got⟩, done, rfl⟩ := Option.map_eq_some_iff.mp next
    exact ⟨c, buf_sz, sq, got, rfl, done, rfl⟩

theorem shape_of_counts {q q' : SqHead} (shape : Shape q N ns) (size : q'.ele_size = q.ele_size)
    (count : q'.ele_count = q.ele_count) : Shape q' N ns := by
  obtain ⟨c, reserve, node, wide, narrow⟩ := shape
  unfold nodeSize at node
  constructor
  · rw [count]
    exact c
  · exact reserve
  · unfold nodeSize
    rw [size]
    exact node
  · exact wide
  · exact narrow

theorem inv_reserve (inv : Inv N ns s b h e t held msgs) {now : Timeval} {data : Mem UInt8}
    {datalen : Int} (next : step s (.reserve now data datalen) = some s') :
    ∃ t', Inv N ns s' b h e t' held msgs := by
  obtain ⟨writing, low, high, r, room, rfl⟩ := step_reserve next
  have at_end := inv.writer
  rw [writing] at at_end
  cases at_end
  have le := layout_le inv.stored
  obtain ⟨p, placed, near, rfl⟩ :=
    reserve_spec inv.shape le inv.near inv.head_at inv.tail_at low high room
  have after := placed.after
  refine ⟨p + need ns datalen.toNat, ?_⟩
  constructor
  · exact shape_of_counts inv.shape rfl rfl
  · exact inv.head_at
  · rfl
  · omega
  · exact near
  · exact inv.held_near
  · exact inv.written
  · exact inv.held_at
  · exact inv.stored
  · exact inv.clear
  · exact ⟨low, high, p, placed, rfl, rfl⟩
  · exact inv.reader
  · exact inv.history

theorem in_range {a v d : Nat} (lower : a ≤ v) (upper : v < d) (near : d < a + N) :
    InRange (a % N : Nat) (d % N : Nat) (v % N : Nat) := by
  obtain ⟨k, rfl⟩ := Nat.exists_eq_add_of_le lower
  obtain ⟨n, rfl⟩ := Nat.exists_eq_add_of_le (show a ≤ d by omega)
  have cell := Nat.mod_lt a (show N > 0 by omega)
  have first : (a + k) % N = if N ≤ a % N + k then a % N + k - N else a % N + k := by
    rw [Nat.add_mod_eq_ite, Nat.mod_eq_of_lt (show k < N by omega)]
  have last : (a + n) % N = if N ≤ a % N + n then a % N + n - N else a % N + n := by
    rw [Nat.add_mod_eq_ite, Nat.mod_eq_of_lt (show n < N by omega)]
  unfold InRange
  split at first <;> split at last <;> split <;> omega

/-- What the condition on a publish step is for: the nodes written end before the first
    node that is claimed, one turn later. -/
theorem undisturbed_end (inv : Inv N ns s b h e t held msgs) {r : Reservation} {now : Timeval}
    {data : Mem UInt8} {datalen : Int} (writing : s.writer = .reserved r now data datalen)
    (safe : Undisturbed s) : t ≤ b + N := by
  have near := inv.near
  have le := layout_le inv.stored
  have held_at := inv.held_at
  have reader := inv.reader
  have writer := inv.writer
  rw [writing] at writer
  obtain ⟨_, _, p, _, _, range⟩ := writer
  cases reading : s.reader with
  | idle =>
    rw [reading] at reader
    cases reader
    cases held_at
    omega
  | claimed c buf_sz =>
    rw [reading] at reader
    cases c with
    | noData =>
      cases reader
      cases held_at
      omega
    | skipped old_head new_head => cases reader
    | message old_head head new_head len =>
      obtain ⟨msg, q, rfl, behind, claimed, _⟩ := reader
      cases claimed
      obtain ⟨q', entry, same⟩ := held_at
      have after := entry.placed.after
      have some_node := need_pos inv.shape.wide msg.1.toNat
      have claimed_some : b < h := by
        have := layout_le same
        unfold span at this
        omega
      by_contra behind_lap
      have count := inv.shape.count
      have cell := Nat.mod_lt b (show N > 0 by have := inv.shape.reserve; omega)
      have written := in_range (N := N) inv.written (show b + N < t by omega) (by omega)
      rw [Nat.add_mod_right] at written
      unfold Undisturbed at safe
      rw [writing, reading, range] at safe
      exact safe (b % N) (by rw [turn_eq inv.shape]; exact cell) written
        (in_range (Nat.le_refl b) claimed_some inv.held_near)

theorem inv_publish (inv : Inv N ns s b h e t held msgs) (safe : Undisturbed s)
    (next : step s .publish = some s') :
    ∃ msg, Inv N ns s' b h t t held (msgs ++ [msg]) := by
  obtain ⟨r, now, data, datalen, head, writing, done, rfl⟩ := step_publish next
  have room := undisturbed_end inv writing safe
  have writer := inv.writer
  rw [writing] at writer
  obtain ⟨low, high, p, placed, rfl, rfl⟩ := writer
  obtain ⟨m, written, entry, rest⟩ := publish_spec inv.shape low high placed _ now data
  rw [written] at done
  cases done
  have wide := inv.shape.wide
  have near := inv.near
  have behind := layout_le inv.held_at
  have le := layout_le inv.stored
  refine ⟨(datalen, slice data 0 datalen.toNat), ?_⟩
  constructor
  · exact shape_of_counts inv.shape rfl rfl
  · exact inv.head_at
  · exact inv.tail_at
  · exact Nat.le_refl _
  · exact near
  · exact inv.held_near
  · exact room
  · exact layout_agree wide (rest b h (apart_below le (by omega))) inv.held_at
  · exact layout_push (layout_agree wide (rest h e (apart_below (Nat.le_refl e) (by omega)))
      inv.stored) entry
  · have free := inv.clear
    refine tokens_agree wide (rest _ _ (apart_above (Nat.le_refl _) ?_)) ?_
    · have := inv.written
      omega
    · intro v lower upper
      exact free v (by have := inv.reserved; omega) upper
  · rfl
  · exact inv.reader
  · dsimp only
    rw [inv.history, List.append_assoc]

/-- With no message stored the queue is empty, or the writer is still at its head. -/
theorem claim_nothing (inv : Inv N ns s b b b t [] []) (patient : ¬ GivesUp s.sq) :
    ∃ rw_conflict, claim s.sq = some ({ s.sq with rw_conflict := rw_conflict }, .noData) := by
  rcases Nat.eq_or_lt_of_le inv.reserved with empty | reserved
  · subst empty
    exact ⟨0, claim_drained inv.shape (by rw [inv.head_at, inv.tail_at])⟩
  · have token := inv.clear b (Nat.le_refl b) (by have := inv.shape.reserve; omega)
    have scans := @scan_busy _ _ _ inv.shape b t token inv.tail_at reserved inv.near
    rw [← inv.head_at] at scans
    have few : s.sq.rw_conflict < SQ_MAX_CONFLICT_TRIES := by
      by_contra many
      exact patient ⟨not_lt.mp many, scans (by decide)⟩
    exact ⟨_, claim_busy (scans few)⟩

theorem inv_no_data (inv : Inv N ns s b b b t [] []) (rw_conflict buf_sz : Int) :
    Inv N ns { s with sq := { s.sq with rw_conflict := rw_conflict }
                      reader := .claimed .noData buf_sz } b b b t [] [] :=
  inv_same_queue inv rfl inv.writer rfl inv.history

theorem inv_claim (inv : Inv N ns s b h e t held msgs) {buf_sz : Int}
    (allowed : Allowed s (.claim buf_sz)) (next : step s (.claim buf_sz) = some s') :
    ∃ h' held' msgs', Inv N ns s' b h' e t held' msgs' := by
  obtain ⟨reading, sq, c, done, rfl⟩ := step_claim next
  obtain ⟨large, patient⟩ := allowed
  have near := inv.near
  have held_at := inv.held_at
  have stored := inv.stored
  have history := inv.history
  have reader := inv.reader
  rw [reading] at reader
  cases reader
  cases held_at
  cases msgs with
  | nil =>
    cases stored
    obtain ⟨rw_conflict, found⟩ := claim_nothing inv patient
    rw [found] at done
    cases done
    exact ⟨b, [], [], inv_no_data inv rw_conflict buf_sz⟩
  | cons msg rest =>
    obtain ⟨p, entry, behind⟩ := stored
    have some_node := need_pos inv.shape.wide msg.1.toNat
    have reserved := inv.reserved
    have le := layout_le behind
    have after := entry.placed.after
    rw [claim_message inv.shape entry inv.head_at inv.tail_at (by omega) near] at done
    cases done
    refine ⟨p + span ns msg, [msg], rest, ?_⟩
    constructor
    · exact shape_of_counts inv.shape rfl rfl
    · rfl
    · exact inv.tail_at
    · exact inv.reserved
    · omega
    · omega
    · exact inv.written
    · exact ⟨p, entry, rfl⟩
    · exact behind
    · exact inv.clear
    · exact inv.writer
    · exact ⟨msg, p, rfl, rfl, rfl, large⟩
    · dsimp only
      rw [history, List.append_nil, List.append_assoc]
      rfl

theorem held_idle (inv : Inv N ns s b h e t held msgs) (reading : s.reader = .idle) :
    held = [] ∧ b = h := by
  have held_at := inv.held_at
  have reader := inv.reader
  rw [reading] at reader
  cases reader
  exact ⟨rfl, held_at⟩

theorem inv_finish (inv : Inv N ns s b h e t held msgs) (next : step s .finish = some s') :
    Inv N ns s' h h e t [] msgs := by
  obtain ⟨c, buf_sz, sq, got, reading, done, rfl⟩ := step_finish next
  have held_at := inv.held_at
  have history := inv.history
  have reader := inv.reader
  rw [reading] at reader
  cases c with
  | skipped old_head new_head => cases reader
  | noData =>
    cases reader
    cases held_at
    cases done
    refine inv_same_queue inv rfl inv.writer rfl ?_
    dsimp only
    rw [history]
    simp [Got.messages]
  | message old_head head new_head datalen =>
    obtain ⟨msg, p, rfl, rfl, claimed, large⟩ := reader
    cases claimed
    obtain ⟨p', entry, same⟩ := held_at
    obtain rfl : p' = p := by
      have same : p' + span ns msg = p + span ns msg := same
      omega
    have wide := inv.shape.wide
    have reserved := inv.reserved
    have near := inv.near
    have written := inv.written
    have le := layout_le inv.stored
    obtain ⟨m, time, finished, cleared, rest⟩ :=
      finish_message inv.shape entry (entry.block.high.trans large) inv.held_near
    rw [finished] at done
    cases done
    have low := entry.block.low
    have after := entry.placed.after
    constructor
    · exact shape_of_counts inv.shape rfl rfl
    · exact inv.head_at
    · exact inv.tail_at
    · exact reserved
    · exact near
    · have := inv.shape.reserve
      omega
    · omega
    · rfl
    · exact layout_agree wide (rest _ e (apart_above (Nat.le_refl _) written)) inv.stored
    · intro v lower upper
      by_cases old : v < b + N
      · rw [token_agree wide (rest v (v + 1) (apart_above (by omega) (by omega)))]
        exact inv.clear v lower old
      · have token := cleared (v - N) (by omega) (by omega)
        rw [nodeCell, ← Nat.mod_eq_sub_mod (by omega)] at token
        exact token
    · exact inv.writer
    · rfl
    · dsimp only
      rw [history]
      simp [Got.messages, show 0 < msg.1 by omega]

end Steps

section Ints

variable {N ns : Nat} {s : Parties}

end Ints

theorem drained {N ns b h e t : Nat} {held msgs : List Message} {s : Parties}
    (inv : Inv N ns s b h e t held msgs) (reading : s.reader = .idle)
    (equal : s.sq.head.head_pos = s.sq.head.tail_pos) : s.received = s.sent := by
  obtain ⟨rfl, rfl⟩ := held_idle inv reading
  have stored := inv.stored
  have le := layout_le stored
  have reserved := inv.reserved
  rw [inv.head_at, inv.tail_at] at equal
  have same : b = t := by
    by_contra ne
    exact node_distinct (show b < t by omega) inv.near (by exact_mod_cast equal)
  cases msgs with
  | nil =>
    rw [inv.history, List.append_nil, List.append_nil]
  | cons msg rest =>
    obtain ⟨p, entry, behind⟩ := stored
    have after := entry.placed.after
    have some_node := need_pos inv.shape.wide msg.1.toNat
    have := layout_le behind
    unfold span at this
    omega

/-- A queue of 202 nodes with 8 bytes of data each. -/
def smallQueue : Handle := ⟨⟨8, 201, 0, 0, fun _ => 0⟩, 0, ""⟩

theorem small_queue_fresh : Fresh smallQueue :=
  sq_create_fresh (by decide) (show sqCreate 1 8 201 = .ok smallQueue from rfl)

end UC.ShmQueue
