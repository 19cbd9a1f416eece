import UC.UnlockQueue.Model

/- Sequential use: whatever is called in whatever order, UnlockQueue is a byte
   FIFO bounded by its size. -/
namespace UC

/-- The abstract queue: at most cap elements, oldest first. -/
structure BoundedFifo (α : Type) (cap : Nat) where
  items : List α
  bounded : items.length ≤ cap

namespace BoundedFifo
variable {α : Type} {cap : Nat}

def empty : BoundedFifo α cap := ⟨[], Nat.zero_le cap⟩

/-- Appends the longest prefix of bs that fits. -/
def append (s : BoundedFifo α cap) (bs : List α) : BoundedFifo α cap :=
  ⟨s.items ++ bs.take (cap - s.items.length), by
    have := s.bounded
    simp only [List.length_append, List.length_take]
    omega⟩

def dropOldest (s : BoundedFifo α cap) (n : Nat) : BoundedFifo α cap :=
  ⟨s.items.drop n, by
    have := s.bounded
    simp only [List.length_drop]
    omega⟩

end BoundedFifo

namespace UnlockQueue
open UC.Memory UC.Ring

/-- The stored bytes, oldest first, as the counters and the buffer give them. -/
def contents (q : UnlockQueue) : List UInt8 :=
  window q.pBuffer q.nSize.toNat q.nOut.toNat q.getDataLen.toNat

inductive Op where
  | put (buffer : Mem UInt8) (len : UInt32)
  | get (buffer : Mem UInt8) (len : UInt32)

def exec (q : UnlockQueue) : Op → UnlockQueue
  | .put buffer len => (q.put buffer len).1
  | .get buffer len => (q.get buffer len).1

def execAll (q : UnlockQueue) (ops : List Op) : UnlockQueue := ops.foldl exec q

variable {cap : Nat}

def refExec (s : BoundedFifo UInt8 cap) : Op → BoundedFifo UInt8 cap
  | .put buffer len => s.append (slice buffer 0 len.toNat)
  | .get _ len => s.dropOldest len.toNat

def refExecAll (s : BoundedFifo UInt8 cap) (ops : List Op) : BoundedFifo UInt8 cap :=
  ops.foldl refExec s

variable {q : UnlockQueue} {i o : Nat}

theorem contents_stream (at_io : Positions q i o) :
    q.contents = window q.pBuffer q.nSize.toNat o (i - o) := by
  have cells : ∀ n, (q.nOut.toNat + n) % q.nSize.toNat = (o + n) % q.nSize.toNat := by
    intro n
    rw [at_io.out_at, Nat.add_mod, Nat.mod_mod_of_dvd _ (power_dvd at_io.pow), ← Nat.add_mod]
  simp only [contents, data_len_stored at_io, window, cells]

theorem put_fst_buffer (at_io : Positions q i o) (buffer : Mem UInt8) (len : UInt32) :
    ∀ r < q.nSize.toNat,
      (q.put buffer len).1.pBuffer ((i + r) % q.nSize.toNat) =
        if r < (q.putLen len).toNat then buffer r else q.pBuffer ((i + r) % q.nSize.toNat) := by
  intro r hr
  have fits := put_len_room at_io len
  have part := @first_part_cell q q.nIn (q.putLen len) i at_io.pow at_io.in_at
  have rest : (q.putLen len - q.firstPart q.nIn (q.putLen len)).toNat =
      (q.putLen len).toNat - (q.firstPart q.nIn (q.putLen len)).toNat :=
    rest_part (by omega)
  simp only [put, offset_cell at_io.pow at_io.in_at, rest, part]
  exact copy_in q.pBuffer buffer (by omega) hr

theorem put_positions (at_io : Positions q i o) (buffer : Mem UInt8) (len : UInt32) :
    Positions (q.put buffer len).1 (i + (q.putLen len).toNat) o where
  pow := at_io.pow
  in_at := counter_advance at_io.in_at
  out_at := at_io.out_at
  ordered := by have := at_io.ordered; omega
  bounded := by
    have h1 := at_io.bounded; have h2 := put_len_room at_io len; have h3 := at_io.ordered
    change i + (q.putLen len).toNat - o ≤ q.nSize.toNat
    omega

theorem get_positions (at_io : Positions q i o) (buffer : Mem UInt8) (len : UInt32) :
    Positions (q.get buffer len).1 i (o + (q.getLen len).toNat) where
  pow := at_io.pow
  in_at := at_io.in_at
  out_at := counter_advance at_io.out_at
  ordered := by have h1 := at_io.ordered; have h2 := get_len_stored at_io len; omega
  bounded := by have := at_io.bounded; simp only [get]; omega

theorem put_contents (at_io : Positions q i o) (buffer : Mem UInt8) (len : UInt32) :
    (q.put buffer len).1.contents = q.contents ++ slice buffer 0 (q.putLen len).toNat := by
  have room := put_len_room at_io len
  have h3 := at_io.ordered; have h4 := at_io.bounded
  have total : i + (q.putLen len).toNat - o = (i - o) + (q.putLen len).toNat := by omega
  have back : o + (i - o) = i := by omega
  have copied := put_fst_buffer at_io buffer len
  rw [← back] at copied
  rw [contents_stream (put_positions at_io buffer len), contents_stream at_io, total]
  have fits : i - o + (q.putLen len).toNat ≤ q.nSize.toNat := by omega
  exact window_extend buffer fits copied

theorem get_contents (at_io : Positions q i o) (buffer : Mem UInt8) (len : UInt32) :
    (q.get buffer len).1.contents = q.contents.drop (q.getLen len).toNat := by
  have bound := get_len_stored at_io len
  rw [contents_stream (get_positions at_io buffer len), contents_stream at_io,
    window_drop _ _ _ _ _ (by omega)]
  simp only [get, Nat.sub_sub]

theorem get_buffer (at_io : Positions q i o) (buffer : Mem UInt8) (len : UInt32) (x : Nat) :
    (q.get buffer len).2.1 x =
      if x < (q.getLen len).toNat then q.pBuffer ((o + x) % q.nSize.toNat) else buffer x := by
  have bound := get_len_stored at_io len
  have part := @first_part_cell q q.nOut (q.getLen len) o at_io.pow at_io.out_at
  have rest : (q.getLen len - q.firstPart q.nOut (q.getLen len)).toNat =
      (q.getLen len).toNat - (q.firstPart q.nOut (q.getLen len)).toNat :=
    rest_part (by omega)
  have h4 := at_io.bounded
  simp only [get, offset_cell at_io.pow at_io.out_at, rest, part]
  exact copy_out buffer q.pBuffer (by omega) (power_positive at_io.pow)

theorem get_bytes (at_io : Positions q i o) (buffer : Mem UInt8) (len : UInt32) :
    slice (q.get buffer len).2.1 0 (q.getLen len).toNat =
      q.contents.take (q.getLen len).toNat := by
  have bound := get_len_stored at_io len
  rw [contents_stream at_io, window_take _ _ _ _ _ (by omega)]
  apply List.map_congr_left
  intro x hx
  rw [Nat.zero_add, get_buffer at_io, if_pos (List.mem_range.mp hx)]

/-- The queue q holds exactly the bytes of the abstract FIFO s. -/
structure Refines (q : UnlockQueue) (s : BoundedFifo UInt8 cap) : Prop where
  size : q.nSize.toNat = cap
  at_some : ∃ i o, Positions q i o
  stored : q.contents = s.items

theorem refines_length {s : BoundedFifo UInt8 cap} (r : Refines q s) :
    q.getDataLen.toNat = s.items.length := by
  rw [← r.stored, contents, window_length]

theorem initialized_positions (fresh : Mem UInt8) {nSize : UInt32} (pow : PowerOfTwo nSize) :
    Positions (initialized fresh nSize) 0 0 :=
  ⟨pow, rfl, rfl, Nat.le_refl 0, Nat.zero_le _⟩

theorem refines_initialized (fresh : Mem UInt8) {nSize : UInt32} (pow : PowerOfTwo nSize) :
    Refines (initialized fresh nSize) (.empty : BoundedFifo UInt8 nSize.toNat) where
  size := rfl
  at_some := ⟨0, 0, initialized_positions fresh pow⟩
  stored := contents_stream (initialized_positions fresh pow)

theorem put_len_refines {s : BoundedFifo UInt8 cap} (r : Refines q s) (len : UInt32) :
    (q.putLen len).toNat = min len.toNat (cap - s.items.length) := by
  obtain ⟨i, o, at_io⟩ := r.at_some
  rw [put_len_room at_io, ← refines_length r, data_len_stored at_io, r.size]

theorem get_len_refines {s : BoundedFifo UInt8 cap} (r : Refines q s) (len : UInt32) :
    (q.getLen len).toNat = min len.toNat s.items.length := by
  obtain ⟨i, o, at_io⟩ := r.at_some
  rw [get_len_stored at_io, ← refines_length r, data_len_stored at_io]

theorem refines_exec {s : BoundedFifo UInt8 cap} (r : Refines q s) (op : Op) :
    Refines (q.exec op) (refExec s op) := by
  obtain ⟨i, o, at_io⟩ := r.at_some
  cases op with
  | put buffer len =>
    refine ⟨r.size, ⟨_, _, put_positions at_io buffer len⟩, ?_⟩
    simp only [exec, refExec, BoundedFifo.append, put_contents at_io, r.stored]
    rw [slice_take, put_len_refines r]
  | get buffer len =>
    refine ⟨r.size, ⟨_, _, get_positions at_io buffer len⟩, ?_⟩
    simp only [exec, refExec, BoundedFifo.dropOldest, get_contents at_io, r.stored]
    rw [get_len_refines r]
    rcases Nat.le_total len.toNat s.items.length with h | h
    · rw [Nat.min_eq_left h]
    · rw [Nat.min_eq_right h, List.drop_eq_nil_of_le h, List.drop_length]

theorem refines_exec_all (ops : List Op) {s : BoundedFifo UInt8 cap} (r : Refines q s) :
    Refines (q.execAll ops) (refExecAll s ops) := by
  induction ops generalizing q s with
  | nil => exact r
  | cons op ops ih => exact ih (refines_exec r op)

/-- Every call in every sequence of calls behaves as on the bounded FIFO. -/
theorem sequential_queue_is_bounded_fifo (nSize : UInt32) (pow : PowerOfTwo nSize)
    (fresh : Mem UInt8) (ops : List Op) :
    let q := (initialized fresh nSize).execAll ops
    let s := refExecAll (.empty : BoundedFifo UInt8 nSize.toNat) ops
    q.contents = s.items ∧
    q.getDataLen.toNat = s.items.length ∧ s.items.length ≤ nSize.toNat ∧
    (∀ buffer len, (q.put buffer len).2.toNat = min len.toNat (nSize.toNat - s.items.length) ∧
      (q.put buffer len).1.contents = s.items ++ slice buffer 0 (q.put buffer len).2.toNat) ∧
    (∀ buffer len, (q.get buffer len).2.2.toNat = min len.toNat s.items.length ∧
      slice (q.get buffer len).2.1 0 (q.get buffer len).2.2.toNat =
        s.items.take (q.get buffer len).2.2.toNat ∧
      (∀ x, (q.get buffer len).2.2.toNat ≤ x → (q.get buffer len).2.1 x = buffer x) ∧
      (q.get buffer len).1.contents = s.items.drop (q.get buffer len).2.2.toNat) := by
  intro q s
  have r : Refines q s := refines_exec_all ops (refines_initialized fresh pow)
  obtain ⟨i, o, at_io⟩ := r.at_some
  refine ⟨r.stored, refines_length r, s.bounded, ?_, ?_⟩
  · intro buffer len
    exact ⟨put_len_refines r len, by rw [put_contents at_io, r.stored]; rfl⟩
  · intro buffer len
    refine ⟨get_len_refines r len, ?_, ?_, ?_⟩
    · rw [← r.stored]
      exact get_bytes at_io buffer len
    · intro x beyond
      have beyond : ¬ x < (q.getLen len).toNat := Nat.not_lt.mpr beyond
      rw [get_buffer at_io, if_neg beyond]
    · rw [get_contents at_io, r.stored]
      rfl

theorem eight_byte_queue_after_three_calls :
    let ops : List Op := [.put (fun x => x.toUInt8) 6, .get (fun _ => 0) 4,
      .put (fun x => 10 + x.toUInt8) 100]
    PowerOfTwo 8 ∧
    ((initialized (fun _ => 0) 8).execAll ops).contents =
      (refExecAll (.empty : BoundedFifo UInt8 8) ops).items ∧
    (refExecAll (.empty : BoundedFifo UInt8 8) ops).items = [4, 5, 10, 11, 12, 13, 14, 15] :=
  ⟨⟨3, by decide, rfl⟩,
    (sequential_queue_is_bounded_fifo 8 ⟨3, by decide, rfl⟩ (fun _ => 0) _).1, by decide⟩

end UnlockQueue

end UC
