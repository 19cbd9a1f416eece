import UC.Lib.Runs
import UC.UnlockQueue.Model

/- One thread in Put and one in Get, at the grain of single samples, byte copies
   and publications, in any interleaving. Each side computes with the value of the
   other side's counter it sampled when the call began. -/
namespace UC.UnlockQueue
open UC.Memory UC.Ring UC.Runs

/-- Offset of byte k of a copy that starts at counter and turns round after l bytes. -/
def copyCell (q : UnlockQueue) (counter l : UInt32) (k : Nat) : Nat :=
  if k < l.toNat then (q.offset counter).toNat + k else k - l.toNat

inductive Producer where
  | idle
  | copying (buffer : Mem UInt8) (len : UInt32) (k : Nat)

inductive Consumer where
  | idle
  | copying (buffer : Mem UInt8) (len : UInt32) (k : Nat)

/-- The shared queue, the two threads, and as history the bytes accepted by the
    completed Puts and the bytes returned by the completed Gets. -/
structure Threads where
  q : UnlockQueue
  producer : Producer
  consumer : Consumer
  accepted : List UInt8
  returned : List UInt8

def start (fresh : Mem UInt8) (nSize : UInt32) : Threads :=
  ⟨initialized fresh nSize, .idle, .idle, [], []⟩

def putByte (s : Threads) (buffer : Mem UInt8) (len : UInt32) (k : Nat) : Threads :=
  let cell := s.q.copyCell s.q.nIn (s.q.firstPart s.q.nIn len) k
  ⟨⟨store s.q.pBuffer cell (buffer k), s.q.nSize, s.q.nIn, s.q.nOut⟩,
    .copying buffer len (k + 1), s.consumer, s.accepted, s.returned⟩

def putPublish (s : Threads) (buffer : Mem UInt8) (len : UInt32) : Threads :=
  ⟨⟨s.q.pBuffer, s.q.nSize, s.q.nIn + len, s.q.nOut⟩,
    .idle, s.consumer, s.accepted ++ slice buffer 0 len.toNat, s.returned⟩

def getByte (s : Threads) (buffer : Mem UInt8) (len : UInt32) (k : Nat) : Threads :=
  let cell := s.q.copyCell s.q.nOut (s.q.firstPart s.q.nOut len) k
  ⟨s.q, s.producer, .copying (store buffer k (s.q.pBuffer cell)) len (k + 1),
    s.accepted, s.returned⟩

def getPublish (s : Threads) (buffer : Mem UInt8) (len : UInt32) : Threads :=
  ⟨⟨s.q.pBuffer, s.q.nSize, s.q.nIn, s.q.nOut + len⟩,
    s.producer, .idle, s.accepted, s.returned ++ slice buffer 0 len.toNat⟩

inductive Step : Threads → Threads → Prop where
  | putSample {s : Threads} (buffer : Mem UInt8) (len : UInt32) (ready : s.producer = .idle) :
      Step s ⟨s.q, .copying buffer (s.q.putLen len) 0, s.consumer, s.accepted, s.returned⟩
  | putByte {s : Threads} {buffer : Mem UInt8} {len : UInt32} {k : Nat}
      (copying : s.producer = .copying buffer len k) (more : k < len.toNat) :
      Step s (putByte s buffer len k)
  | putPublish {s : Threads} {buffer : Mem UInt8} {len : UInt32}
      (done : s.producer = .copying buffer len len.toNat) : Step s (putPublish s buffer len)
  | getSample {s : Threads} (buffer : Mem UInt8) (len : UInt32) (ready : s.consumer = .idle) :
      Step s ⟨s.q, s.producer, .copying buffer (s.q.getLen len) 0, s.accepted, s.returned⟩
  | getByte {s : Threads} {buffer : Mem UInt8} {len : UInt32} {k : Nat}
      (copying : s.consumer = .copying buffer len k) (more : k < len.toNat) :
      Step s (getByte s buffer len k)
  | getPublish {s : Threads} {buffer : Mem UInt8} {len : UInt32}
      (done : s.consumer = .copying buffer len len.toNat) : Step s (getPublish s buffer len)

/-- Bytes the running Put has accepted. -/
def Producer.pending : Producer → List UInt8
  | .idle => []
  | .copying buffer len _ => slice buffer 0 len.toNat

/-- Bytes of the running Put that already are in the buffer. -/
def Producer.written : Producer → List UInt8
  | .idle => []
  | .copying buffer _ k => slice buffer 0 k

/-- Bytes the running Get has copied out so far. -/
def Consumer.copied : Consumer → List UInt8
  | .idle => []
  | .copying buffer _ k => slice buffer 0 k

/-- What a running Put may rely on: the room it sampled can only grow. -/
def Producer.Sound (size used : Nat) : Producer → Prop
  | .idle => True
  | .copying _ len k => k ≤ len.toNat ∧ used + len.toNat ≤ size

/-- What a running Get may rely on: the bytes it sampled stay where they are. -/
def Consumer.Sound (m : Mem UInt8) (size out used : Nat) : Consumer → Prop
  | .idle => True
  | .copying buffer len k => k ≤ len.toNat ∧ len.toNat ≤ used ∧
      slice buffer 0 k = window m size out k

structure Inv (s : Threads) : Prop where
  at_io : Positions s.q s.accepted.length s.returned.length
  producer : s.producer.Sound s.q.nSize.toNat (s.accepted.length - s.returned.length)
  consumer : s.consumer.Sound s.q.pBuffer s.q.nSize.toNat s.returned.length
    (s.accepted.length - s.returned.length)
  /-- The buffer carries the published bytes and, behind them, those being written. -/
  stored : s.accepted ++ s.producer.written = s.returned ++
    window s.q.pBuffer s.q.nSize.toNat s.returned.length
      (s.accepted.length - s.returned.length + s.producer.written.length)

theorem copy_cell {q : UnlockQueue} {counter len : UInt32} {p k : Nat}
    (pow : PowerOfTwo q.nSize) (at_p : counter.toNat = p % 2 ^ 32)
    (more : k < len.toNat) (fits : len.toNat ≤ q.nSize.toNat) :
    q.copyCell counter (q.firstPart counter len) k = (p + k) % q.nSize.toNat := by
  rw [copyCell, first_part_cell pow at_p, offset_cell pow at_p, split_cell (by omega)]
  split <;> split <;> omega

theorem slice_succ (m : Mem UInt8) (k : Nat) : slice m 0 (k + 1) = slice m 0 k ++ [m k] := by
  rw [slice_add]
  simp [slice]

theorem slice_store (m : Mem UInt8) (k : Nat) (v : UInt8) :
    slice (store m k v) 0 (k + 1) = slice m 0 k ++ [v] := by
  rw [slice_succ, store_same]
  congr 1
  apply slice_congr
  intro i hi
  exact store_other m v (by omega)

theorem inv_start (fresh : Mem UInt8) {nSize : UInt32} (pow : PowerOfTwo nSize) :
    Inv (start fresh nSize) where
  at_io := ⟨pow, rfl, rfl, Nat.le_refl 0, Nat.zero_le _⟩
  producer := trivial
  consumer := trivial
  stored := rfl

theorem put_byte_cell {s : Threads} (inv : Inv s) {buffer : Mem UInt8} {len : UInt32} {k : Nat}
    (copying : s.producer = .copying buffer len k) (more : k < len.toNat) :
    s.q.copyCell s.q.nIn (s.q.firstPart s.q.nIn len) k =
      (s.returned.length + (s.accepted.length - s.returned.length + k)) % s.q.nSize.toNat := by
  have sound := inv.producer
  rw [copying] at sound
  have ordered := inv.at_io.ordered
  rw [copy_cell inv.at_io.pow inv.at_io.in_at more (by have := sound.2; omega)]
  congr 1
  omega

theorem inv_put_sample {s : Threads} (inv : Inv s) (buffer : Mem UInt8) (len : UInt32)
    (ready : s.producer = .idle) :
    Inv ⟨s.q, .copying buffer (s.q.putLen len) 0, s.consumer, s.accepted, s.returned⟩ := by
  obtain ⟨at_io, _, consumer, stored⟩ := inv
  have room := put_len_room at_io len
  have bounded := at_io.bounded
  rw [ready] at stored
  refine ⟨at_io, ⟨Nat.zero_le _, ?_⟩, consumer, stored⟩
  dsimp only
  omega

theorem inv_put_byte {s : Threads} (inv : Inv s) {buffer : Mem UInt8} {len : UInt32} {k : Nat}
    (copying : s.producer = .copying buffer len k) (more : k < len.toNat) :
    Inv (putByte s buffer len k) := by
  have cell := put_byte_cell inv copying more
  obtain ⟨at_io, producer, consumer, stored⟩ := inv
  rw [copying] at producer stored
  obtain ⟨_, room⟩ := producer
  rw [putByte, cell]
  refine ⟨⟨at_io.pow, at_io.in_at, at_io.out_at, at_io.ordered, at_io.bounded⟩,
    ⟨more, room⟩, ?_, ?_⟩
  · dsimp only
    cases getting : s.consumer with
    | idle => trivial
    | copying out n j =>
      rw [getting] at consumer
      obtain ⟨hj, hn, bytes⟩ := consumer
      refine ⟨hj, hn, ?_⟩
      rw [window_store_outside _ _ (by omega) (by omega)]
      exact bytes
  · simp only [Producer.written, slice_length] at stored ⊢
    rw [← Nat.add_assoc (s.accepted.length - s.returned.length) k 1,
      window_push _ _ (by omega), slice_succ, ← List.append_assoc,
      stored, List.append_assoc]

theorem inv_put_publish {s : Threads} (inv : Inv s) {buffer : Mem UInt8} {len : UInt32}
    (done : s.producer = .copying buffer len len.toNat) : Inv (putPublish s buffer len) := by
  obtain ⟨at_io, producer, consumer, stored⟩ := inv
  rw [done] at producer stored
  obtain ⟨_, room⟩ := producer
  have ordered := at_io.ordered
  have grown : (s.accepted ++ slice buffer 0 len.toNat).length = s.accepted.length + len.toNat := by
    rw [List.length_append, slice_length]
  have used : s.accepted.length + len.toNat - s.returned.length =
      s.accepted.length - s.returned.length + len.toNat := by omega
  refine ⟨⟨at_io.pow, ?_, at_io.out_at, ?_, ?_⟩, trivial, ?_, ?_⟩ <;>
    simp only [putPublish, grown, used]
  · exact counter_advance at_io.in_at
  · omega
  · exact room
  · cases getting : s.consumer with
    | idle => trivial
    | copying out n j =>
      rw [getting] at consumer
      obtain ⟨hj, hn, bytes⟩ := consumer
      exact ⟨hj, by omega, bytes⟩
  · simp only [Producer.written, slice_length, List.append_nil, List.length_nil,
      Nat.add_zero] at stored ⊢
    exact stored

theorem inv_get_sample {s : Threads} (inv : Inv s) (buffer : Mem UInt8) (len : UInt32) :
    Inv ⟨s.q, s.producer, .copying buffer (s.q.getLen len) 0, s.accepted, s.returned⟩ := by
  obtain ⟨at_io, producer, _, stored⟩ := inv
  have present := get_len_stored at_io len
  refine ⟨at_io, producer, ⟨Nat.zero_le _, ?_, rfl⟩, stored⟩
  dsimp only
  omega

theorem inv_get_byte {s : Threads} (inv : Inv s) {buffer : Mem UInt8} {len : UInt32} {k : Nat}
    (copying : s.consumer = .copying buffer len k) (more : k < len.toNat) :
    Inv (getByte s buffer len k) := by
  obtain ⟨at_io, producer, consumer, stored⟩ := inv
  rw [copying] at consumer
  obtain ⟨_, sampled, bytes⟩ := consumer
  have bounded := at_io.bounded
  refine ⟨at_io, producer, ⟨more, sampled, ?_⟩, stored⟩
  simp only [getByte]
  rw [copy_cell at_io.pow at_io.out_at more (by omega), slice_store, window_add, window_one, bytes]

theorem inv_get_publish {s : Threads} (inv : Inv s) {buffer : Mem UInt8} {len : UInt32}
    (done : s.consumer = .copying buffer len len.toNat) : Inv (getPublish s buffer len) := by
  obtain ⟨at_io, producer, consumer, stored⟩ := inv
  rw [done] at consumer
  obtain ⟨_, sampled, bytes⟩ := consumer
  have ordered := at_io.ordered
  have bounded := at_io.bounded
  have grown : (s.returned ++ slice buffer 0 len.toNat).length = s.returned.length + len.toNat := by
    rw [List.length_append, slice_length]
  refine ⟨⟨at_io.pow, at_io.in_at, ?_, ?_, ?_⟩, ?_, trivial, ?_⟩ <;>
    simp only [getPublish, grown]
  · exact counter_advance at_io.out_at
  · omega
  · omega
  · cases putting : s.producer with
    | idle => trivial
    | copying out n j =>
      rw [putting] at producer
      obtain ⟨hj, room⟩ := producer
      exact ⟨hj, by omega⟩
  · have split : s.accepted.length - s.returned.length + s.producer.written.length =
        len.toNat + (s.accepted.length - (s.returned.length + len.toNat) +
          s.producer.written.length) := by omega
    rw [split, window_add, ← bytes] at stored
    rw [stored, List.append_assoc]

theorem inv_step {s t : Threads} (inv : Inv s) (next : Step s t) : Inv t := by
  cases next with
  | putSample buffer len ready => exact inv_put_sample inv buffer len ready
  | putByte copying more => exact inv_put_byte inv copying more
  | putPublish done => exact inv_put_publish inv done
  | getSample buffer len ready => exact inv_get_sample inv buffer len
  | getByte copying more => exact inv_get_byte inv copying more
  | getPublish done => exact inv_get_publish inv done

theorem inv_reachable {fresh : Mem UInt8} {nSize : UInt32} (pow : PowerOfTwo nSize)
    {s : Threads} (run : Reachable Step (start fresh nSize) s) : Inv s :=
  invariant_reachable (inv_start fresh pow) (fun _ _ => inv_step) run

/-- The published bytes are the returned ones followed by the queue contents. -/
theorem accepted_split {s : Threads} (inv : Inv s) :
    s.accepted = s.returned ++ window s.q.pBuffer s.q.nSize.toNat s.returned.length
      (s.accepted.length - s.returned.length) := by
  have stored := inv.stored
  have ordered := inv.at_io.ordered
  rw [window_add, ← List.append_assoc] at stored
  refine (List.append_inj stored ?_).1
  rw [List.length_append, window_length]
  omega

theorem copied_prefix {s : Threads} (inv : Inv s) :
    s.returned ++ s.consumer.copied <+: s.accepted := by
  have split := accepted_split inv
  cases getting : s.consumer with
  | idle =>
    rw [Consumer.copied, List.append_nil]
    exact ⟨_, split.symm⟩
  | copying buffer len k =>
    have sound := inv.consumer
    rw [getting] at sound
    obtain ⟨hk, sampled, bytes⟩ := sound
    have parts : s.accepted.length - s.returned.length =
        k + (s.accepted.length - s.returned.length - k) := by omega
    rw [parts, window_add, ← bytes, ← List.append_assoc] at split
    exact ⟨_, split.symm⟩

theorem size_reachable {fresh : Mem UInt8} {nSize : UInt32} {s : Threads}
    (run : Reachable Step (start fresh nSize) s) : s.q.nSize = nSize := by
  induction run with
  | refl => rfl
  | tail _ next size => cases next <;> exact size

/-- In every interleaving the returned bytes are a prefix of the accepted ones, a
    running Get has only copied published bytes, and the accepted bytes not yet
    returned all are in the buffer, in their order. -/
theorem interleaved_queue_is_fifo (nSize : UInt32) (pow : PowerOfTwo nSize) (fresh : Mem UInt8)
    (s : Threads) (run : Reachable Step (start fresh nSize) s) :
    s.returned <+: s.accepted ++ s.producer.pending ∧
    s.returned ++ s.consumer.copied <+: s.accepted ∧
    s.accepted = s.returned ++ window s.q.pBuffer nSize.toNat s.returned.length
      (s.accepted.length - s.returned.length) ∧
    s.accepted.length - s.returned.length ≤ nSize.toNat := by
  have inv := inv_reachable pow run
  have split := accepted_split inv
  have bounded := inv.at_io.bounded
  rw [size_reachable run] at split bounded
  refine ⟨?_, copied_prefix inv, split, bounded⟩
  have published : s.returned <+: s.accepted := ⟨_, split.symm⟩
  exact published.trans (List.prefix_append s.accepted s.producer.pending)

/-- A Put of one byte, and then a whole Get while the next Put is at its second byte. -/
theorem get_beside_running_put :
    ∃ s, Reachable Step (start (fun _ => 0) 8) s ∧ s.producer.written = [9] ∧
      s.producer.pending = [9, 9] ∧ s.returned = [7] ∧
      s.returned <+: s.accepted ++ s.producer.pending := by
  have run : Reachable Step (start (fun _ => 0) 8) (start (fun _ => 0) 8) := reachable_start _
  have run := reachable_step run (.putSample (fun _ => 7) 1 rfl)
  have run := reachable_step run (.putByte rfl (by decide))
  have run := reachable_step run (.putPublish rfl)
  have run := reachable_step run (.putSample (fun _ => 9) 2 rfl)
  have run := reachable_step run (.getSample (fun _ => 0) 4 rfl)
  have run := reachable_step run (.putByte rfl (by decide))
  have run := reachable_step run (.getByte rfl (by decide))
  have run := reachable_step run (.getPublish rfl)
  exact ⟨_, run, by decide, by decide, by decide,
    (interleaved_queue_is_fifo 8 ⟨3, by decide, rfl⟩ _ _ run).1⟩

end UC.UnlockQueue
