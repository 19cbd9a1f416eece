import Mathlib.Data.List.Forall2
import UC.Lib.Words
import UC.UnlockQueue.Fifo

/- producer_proc and consumer_proc of example_unlockqueue.cpp on their queue of 1024 bytes, in any
   order of their calls: a record is put whole or not at all, because 16 divides 1024. A long has
   eight bytes, and a record no padding. -/
namespace UC.UnlockQueue
open UC.Memory UC.Words

structure StudentInfo where
  stuId : Int64
  age : UInt32
  score : UInt32
  deriving DecidableEq

def sizeofStudentInfo : UInt32 := 16

/-- A student_info in memory. -/
def image (info : StudentInfo) : Mem UInt8 :=
  store32 (store32 (store64 (fun _ => 0) 0 info.stuId.toUInt64.toNat) 8 info.age.toNat)
    12 info.score.toNat

/-- What print_student_info reads. -/
def student (m : Mem UInt8) : StudentInfo :=
  ⟨(UInt64.ofNat (load64 m 0)).toInt64, UInt32.ofNat (load32 m 8), UInt32.ofNat (load32 m 12)⟩

def bytes (info : StudentInfo) : List UInt8 := slice (image info) 0 sizeofStudentInfo.toNat

theorem student_image (info : StudentInfo) : student (image info) = info := by
  have id := UInt64.toNat_lt info.stuId.toUInt64
  have age := UInt32.toNat_lt info.age
  have score := UInt32.toNat_lt info.score
  have load_id : load64 (image info) 0 = info.stuId.toUInt64.toNat := by
    have below : load64 (image info) 0 =
        load64 (store64 (fun _ => 0) 0 info.stuId.toUInt64.toNat) 0 := by
      apply load64_congr
      intro i hi
      rw [image, store32_outside _ _ (by omega), store32_outside _ _ (by omega)]
    rw [below, load64_store64, Nat.mod_eq_of_lt id]
  have load_age : load32 (image info) 8 = info.age.toNat := by
    rw [image, load32_store32_outside _ _ (by omega), load32_store32, Nat.mod_eq_of_lt age]
  have load_score : load32 (image info) 12 = info.score.toNat := by
    rw [image, load32_store32, Nat.mod_eq_of_lt score]
  rw [student, load_id, load_age, load_score, UInt64.ofNat_toNat, UInt32.ofNat_toNat,
    UInt32.ofNat_toNat, Int64.toInt64_toUInt64]

theorem student_of_bytes {m : Mem UInt8} {info : StudentInfo}
    (same : slice m 0 sizeofStudentInfo.toNat = bytes info) : student m = info := by
  have cells : ∀ i < 16, m i = image info i := by
    intro i hi
    have cell := List.map_inj_left.mp same i (List.mem_range.mpr hi)
    simpa using cell
  have load_id : load64 m 0 = load64 (image info) 0 :=
    load64_congr fun i hi => cells (0 + i) (by omega)
  have load_age : load32 m 8 = load32 (image info) 8 :=
    load32_congr fun i hi => cells (8 + i) (by omega)
  have load_score : load32 m 12 = load32 (image info) 12 :=
    load32_congr fun i hi => cells (12 + i) (by omega)
  rw [student, load_id, load_age, load_score]
  exact student_image info

/-- A positive Get: what it returns, and stu_info behind it. -/
structure Got where
  len : UInt32
  stuInfo : Mem UInt8

structure Procs where
  queue : UnlockQueue
  stuInfo : Mem UInt8
  got : List Got

/-- A round of producer_proc or of consumer_proc. -/
inductive Call where
  | produce (info : StudentInfo)
  | consume

/-- What Put returns is ignored. -/
def producerProc (s : Procs) (info : StudentInfo) : Procs :=
  { s with queue := (s.queue.put (image info) sizeofStudentInfo).1 }

def consumerProc (s : Procs) : Procs :=
  let (queue, stuInfo, len) := s.queue.get s.stuInfo sizeofStudentInfo
  ⟨queue, stuInfo, if 0 < len then s.got ++ [⟨len, stuInfo⟩] else s.got⟩

def call (s : Procs) : Call → Procs
  | .produce info => producerProc s info
  | .consume => consumerProc s

def started (fresh stuInfo : Mem UInt8) : Procs := ⟨initialized fresh 1024, stuInfo, []⟩

def recordsPut : List Call → List StudentInfo
  | [] => []
  | .produce info :: rest => info :: recordsPut rest
  | .consume :: rest => recordsPut rest

/-- The records that do not meet a full queue. -/
def kept (s : Procs) : List Call → List StudentInfo
  | [] => []
  | .produce info :: rest =>
    if s.queue.getDataLen = s.queue.nSize then kept (producerProc s info) rest
    else info :: kept (producerProc s info) rest
  | .consume :: rest => kept (consumerProc s) rest

/-- The Get returns a whole record, which consumer_proc prints. -/
structure Whole (g : Got) (info : StudentInfo) : Prop where
  len : g.len = sizeofStudentInfo
  same : slice g.stuInfo 0 g.len.toNat = bytes info
  printed : student g.stuInfo = info

/-- The queue holds whole records behind those that were delivered. -/
structure Framed (s : Procs) (delivered waiting : List StudentInfo) : Prop where
  size : s.queue.nSize = 1024
  positions : ∃ i o, Positions s.queue i o
  stored : s.queue.contents = waiting.flatMap bytes
  got : List.Forall₂ Whole s.got delivered

theorem bytes_length (info : StudentInfo) : (bytes info).length = 16 := slice_length _ _ _

theorem records_length (waiting : List StudentInfo) :
    (waiting.flatMap bytes).length = 16 * waiting.length := by
  induction waiting with
  | nil => rfl
  | cons info waiting ih =>
    rw [List.flatMap_cons, List.length_append, bytes_length, ih, List.length_cons]
    omega

section Calls
variable {s : Procs} {delivered waiting : List StudentInfo}

theorem waiting_length (framed : Framed s delivered waiting) :
    s.queue.getDataLen.toNat = 16 * waiting.length := by
  rw [← records_length, ← framed.stored, contents, Ring.window_length]

theorem put_whole (framed : Framed s delivered waiting) :
    (s.queue.putLen sizeofStudentInfo).toNat =
      if s.queue.getDataLen = s.queue.nSize then 0 else 16 := by
  obtain ⟨i, o, at_io⟩ := framed.positions
  have room := put_len_room at_io sizeofStudentInfo
  have used := data_len_stored at_io
  have records := waiting_length framed
  have within := at_io.bounded
  have size : s.queue.nSize.toNat = 1024 := congrArg UInt32.toNat framed.size
  have asked : sizeofStudentInfo.toNat = 16 := rfl
  rw [room, asked, size, ← used]
  split
  · rename_i full
    rw [full, size]
    rfl
  · rename_i spare
    have below : s.queue.getDataLen.toNat ≠ 1024 := by
      intro same
      exact spare (UInt32.toNat.inj (same.trans size.symm))
    omega

theorem framed_produce_full (framed : Framed s delivered waiting) (info : StudentInfo)
    (full : s.queue.getDataLen = s.queue.nSize) :
    Framed (producerProc s info) delivered waiting := by
  have none_put := put_whole framed
  rw [if_pos full] at none_put
  obtain ⟨i, o, at_io⟩ := framed.positions
  refine ⟨framed.size, ⟨_, _, put_positions at_io (image info) sizeofStudentInfo⟩, ?_, framed.got⟩
  rw [producerProc, put_contents at_io, none_put, framed.stored]
  exact List.append_nil _

theorem framed_produce (framed : Framed s delivered waiting) (info : StudentInfo)
    (spare : s.queue.getDataLen ≠ s.queue.nSize) :
    Framed (producerProc s info) delivered (waiting ++ [info]) := by
  have all_put := put_whole framed
  rw [if_neg spare] at all_put
  obtain ⟨i, o, at_io⟩ := framed.positions
  refine ⟨framed.size, ⟨_, _, put_positions at_io (image info) sizeofStudentInfo⟩, ?_, framed.got⟩
  rw [producerProc, put_contents at_io, all_put, framed.stored, List.flatMap_append,
    List.flatMap_singleton]
  rfl

theorem get_whole (framed : Framed s delivered waiting) :
    (s.queue.getLen sizeofStudentInfo).toNat = min 16 (16 * waiting.length) := by
  obtain ⟨i, o, at_io⟩ := framed.positions
  have stored := get_len_stored at_io sizeofStudentInfo
  rw [← data_len_stored at_io, waiting_length framed] at stored
  exact stored

theorem framed_consume_empty (framed : Framed s delivered []) :
    Framed (consumerProc s) delivered [] := by
  have none_got : (s.queue.getLen sizeofStudentInfo).toNat = 0 := get_whole framed
  obtain ⟨i, o, at_io⟩ := framed.positions
  refine ⟨framed.size, ⟨_, _, get_positions at_io s.stuInfo sizeofStudentInfo⟩, ?_, ?_⟩
  · rw [consumerProc]
    change (s.queue.get s.stuInfo sizeofStudentInfo).1.contents = _
    rw [get_contents at_io, none_got, framed.stored]
    rfl
  · have zero : ¬ 0 < s.queue.getLen sizeofStudentInfo := by
      rw [UInt32.lt_iff_toNat_lt, none_got]
      decide
    change List.Forall₂ Whole (if 0 < s.queue.getLen sizeofStudentInfo then _ else s.got) delivered
    rw [if_neg zero]
    exact framed.got

theorem framed_consume {info : StudentInfo} (framed : Framed s delivered (info :: waiting)) :
    Framed (consumerProc s) (delivered ++ [info]) waiting := by
  have whole : (s.queue.getLen sizeofStudentInfo).toNat = 16 := by
    rw [get_whole framed, List.length_cons]
    omega
  obtain ⟨i, o, at_io⟩ := framed.positions
  refine ⟨framed.size, ⟨_, _, get_positions at_io s.stuInfo sizeofStudentInfo⟩, ?_, ?_⟩
  · change (s.queue.get s.stuInfo sizeofStudentInfo).1.contents = _
    rw [get_contents at_io, whole, framed.stored, List.flatMap_cons]
    exact List.drop_left' (bytes_length info)
  · have positive : 0 < s.queue.getLen sizeofStudentInfo := by
      rw [UInt32.lt_iff_toNat_lt, whole]
      decide
    have same : slice (s.queue.get s.stuInfo sizeofStudentInfo).2.1 0
        (s.queue.getLen sizeofStudentInfo).toNat = bytes info := by
      rw [get_bytes at_io, whole, framed.stored, List.flatMap_cons]
      exact List.take_left' (bytes_length info)
    have len : s.queue.getLen sizeofStudentInfo = sizeofStudentInfo := UInt32.toNat.inj whole
    change List.Forall₂ Whole (if 0 < s.queue.getLen sizeofStudentInfo then _ else s.got) _
    rw [if_pos positive]
    refine List.rel_append framed.got (.cons ⟨len, same, ?_⟩ .nil)
    rw [len] at same
    exact student_of_bytes same

/-- From any whole records on, a schedule delivers those that wait and then those it keeps. -/
theorem framed_run (schedule : List Call) (framed : Framed s delivered waiting) :
    ∃ delivered' waiting', delivered' ++ waiting' = delivered ++ waiting ++ kept s schedule ∧
      Framed (schedule.foldl call s) delivered' waiting' := by
  induction schedule generalizing s delivered waiting with
  | nil => exact ⟨delivered, waiting, (List.append_nil _).symm, framed⟩
  | cons next rest ih =>
    rw [List.foldl_cons]
    cases next with
    | produce info =>
      simp only [kept]
      split
      · rename_i full
        exact ih (framed_produce_full framed info full)
      · rename_i spare
        obtain ⟨delivered', waiting', parts, after⟩ := ih (framed_produce framed info spare)
        refine ⟨delivered', waiting', ?_, after⟩
        simpa using parts
    | consume =>
      simp only [kept]
      cases waiting with
      | nil => exact ih (framed_consume_empty framed)
      | cons info waiting =>
        obtain ⟨delivered', waiting', parts, after⟩ := ih (framed_consume framed)
        refine ⟨delivered', waiting', ?_, after⟩
        simpa using parts

theorem kept_sublist (schedule : List Call) (s : Procs) :
    (kept s schedule).Sublist (recordsPut schedule) := by
  induction schedule generalizing s with
  | nil => exact List.Sublist.slnil
  | cons next rest ih =>
    cases next with
    | produce info =>
      simp only [kept, recordsPut]
      split
      · exact (ih _).cons _
      · exact (ih _).cons_cons _
    | consume => exact ih _

end Calls

theorem framed_started (fresh stuInfo : Mem UInt8) : Framed (started fresh stuInfo) [] [] := by
  have at_zero := @initialized_positions fresh 1024 ⟨10, by decide, rfl⟩
  exact ⟨rfl, ⟨0, 0, at_zero⟩, contents_stream at_zero, .nil⟩

/-- In every order of the calls the positive Gets return whole records, which are the first of
    those that did not meet a full queue; the others of them are in the queue. -/
theorem records_stay_whole (fresh stuInfo : Mem UInt8) (schedule : List Call) :
    (kept (started fresh stuInfo) schedule).Sublist (recordsPut schedule) ∧
    ∃ delivered waiting, delivered ++ waiting = kept (started fresh stuInfo) schedule ∧
      List.Forall₂ Whole (schedule.foldl call (started fresh stuInfo)).got delivered ∧
      (schedule.foldl call (started fresh stuInfo)).queue.contents = waiting.flatMap bytes := by
  refine ⟨kept_sublist schedule _, ?_⟩
  obtain ⟨delivered, waiting, parts, framed⟩ := framed_run schedule (framed_started fresh stuInfo)
  exact ⟨delivered, waiting, parts, framed.got, framed.stored⟩

end UC.UnlockQueue
