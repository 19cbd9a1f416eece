import Mathlib.Algebra.BigOperators.Group.Finset.Basic
import UC.HashShm.Counter

/- GetBucketUseSize of every row, in every table that calls with any keys lead to. The rows lie
   one behind the other from PRIMER_TABLE_TATAL on; the loop counts in node number index instead
   and does not leave it. -/
namespace UC.CHashShm
open UC.Memory UC.HashShm UC.Histories

variable {V : Type} {lines : Nat}

/-- The loop, with the rounds still to go; pNode stays where it is. -/
def useSizeLoop (pNode : HashNode V) : Nat → Nat → Nat
  | 0, sum => sum
  | i + 1, sum => useSizeLoop pNode i (if pNode.key ≠ 0 then sum + 1 else sum)

def getBucketUseSize (t : CHashShm V lines) (index : Nat) : Nat :=
  if index ≥ lines then 0 else useSizeLoop (t.shm.nodes index) (primer index) 0

def rowOccupied (t : CHashShm V lines) (index : Nat) : Nat :=
  Nat.count (fun col => t.keyAt (PRIMER_TABLE_TATAL index + col) ≠ 0) (primer index)

/-- The row is empty and so is node number index, or neither has an empty node. -/
def LikeItsNode (t : CHashShm V lines) (index : Nat) : Prop :=
  ∀ col < primer index, t.keyAt (PRIMER_TABLE_TATAL index + col) = 0 ↔ t.keyAt index = 0

/-- Every row is counted right, and so are the rows together. -/
def RowsCounted (t : CHashShm V lines) : Prop :=
  (∀ index < lines, t.getBucketUseSize index = t.rowOccupied index) ∧
    ∑ index ∈ Finset.range lines, t.getBucketUseSize index = occupied t.shm.nodes t.maxSize

/-- What every call keeps, with whatever keys. -/
structure Laid (t : CHashShm V lines) : Prop where
  rows : lines ≤ PRIMER_TABLE_LEN
  size : t.maxSize = PRIMER_TABLE_TATAL lines

def TableLaid : Attached V lines → Prop
  | .before _ => True
  | .table t => Laid t

theorem use_size_loop_eq (pNode : HashNode V) (rounds sum : Nat) :
    useSizeLoop pNode rounds sum = sum + if pNode.key = 0 then 0 else rounds := by
  induction rounds generalizing sum with
  | zero => simp [useSizeLoop]
  | succ rounds ih =>
    rw [useSizeLoop, ih]
    by_cases empty : pNode.key = 0
    · simp [empty]
    · simp only [empty, ne_eq, not_false_eq_true, if_true, if_false]
      omega

/-- What the function answers instead: all of the row or nothing. -/
theorem bucket_use_size_eq (t : CHashShm V lines) {index : Nat} (row : index < lines) :
    t.getBucketUseSize index = if t.keyAt index = 0 then 0 else primer index := by
  rw [getBucketUseSize, if_neg (Nat.not_le.mpr row), use_size_loop_eq, Nat.zero_add]
  rfl

theorem row_counted_iff (t : CHashShm V lines) {index : Nat} (row : index < lines) :
    t.getBucketUseSize index = t.rowOccupied index ↔ LikeItsNode t index := by
  rw [bucket_use_size_eq t row, rowOccupied, eq_comm]
  by_cases empty : t.keyAt index = 0
  · rw [if_pos empty, Nat.count_iff_forall_not]
    simp only [LikeItsNode, empty, iff_true, not_not]
  · rw [if_neg empty, Nat.count_iff_forall]
    simp only [LikeItsNode, empty, iff_false]

/-- The rows that start at PRIMER_TABLE_TATAL are all the nodes. -/
theorem rows_occupied (t : CHashShm V lines) (count : Nat) :
    ∑ index ∈ Finset.range count, t.rowOccupied index =
      occupied t.shm.nodes (PRIMER_TABLE_TATAL count) := by
  induction count with
  | zero => simp [PRIMER_TABLE_TATAL, occupied]
  | succ count ih =>
    rw [Finset.sum_range_succ, ih, PRIMER_TABLE_TATAL]
    exact (Nat.count_add _ _ _).symm

theorem rows_counted_iff {t : CHashShm V lines} (laid : Laid t) :
    RowsCounted t ↔ ∀ index < lines, LikeItsNode t index := by
  constructor
  · rintro ⟨each, _⟩ index row
    exact (row_counted_iff t row).mp (each index row)
  · intro like
    have each : ∀ index < lines, t.getBucketUseSize index = t.rowOccupied index :=
      fun index row => (row_counted_iff t row).mpr (like index row)
    refine ⟨each, ?_⟩
    rw [laid.size, ← rows_occupied]
    exact Finset.sum_congr rfl fun index inside => each index (Finset.mem_range.mp inside)

theorem laid_init [Zero V] {shm : Option (Segment V)} {t : CHashShm V lines} (made : init shm = some t) :
    Laid t := by
  simp only [init] at made
  split at made
  · cases made
  · rename_i rows
    cases made
    exact ⟨Nat.not_lt.mp rows, rfl⟩

theorem laid_insert {t : CHashShm V lines} (laid : Laid t) (key : UInt64) (value : V) :
    Laid (t.insertRows key value (List.range lines)).1 := by
  rcases insert_cases laid.rows laid.size key value with ⟨_, _, _, done⟩ | ⟨_, done⟩
  · rw [done]
    exact ⟨laid.rows, laid.size⟩
  · rw [done]
    exact laid

theorem laid_exec [Zero V] {t : CHashShm V lines} (laid : Laid t) (op : Op V) : Laid (t.exec op).1 := by
  have found := fun key => find_cases laid.rows laid.size (t := t) key
  cases op with
  | set key value =>
    rcases found key with ⟨_, _, _, found⟩ | ⟨_, found⟩
    · simp only [exec, set, found]
      exact ⟨laid.rows, laid.size⟩
    · simp only [exec, set, found]
      exact laid_insert laid key value
  | replace key value =>
    rcases found key with ⟨_, _, _, found⟩ | ⟨_, found⟩
    · simp only [exec, replace, found]
      exact ⟨laid.rows, laid.size⟩
    · simp only [exec, replace, found]
      exact laid_insert laid key value
  | remove key =>
    rcases found key with ⟨_, _, _, found⟩ | ⟨_, found⟩
    · simp only [exec, remove, found]
      exact ⟨laid.rows, laid.size⟩
    · simp only [exec, remove, found]
      exact laid
  | get key value =>
    rcases found key with ⟨_, _, _, found⟩ | ⟨_, found⟩
    · simp only [exec, get, found]
      exact ⟨laid.rows, laid.size⟩
    · simp only [exec, get, found]
      exact laid
  | clear => exact ⟨laid.rows, laid.size⟩

theorem laid_step [Zero V] (a : Attached V lines) (c : Call V) (b : Attached V lines)
    (laid : TableLaid a) (taken : call a c = some b) : TableLaid b := by
  rcases call_cases taken with ⟨_, _, rfl, rfl, made, rfl⟩ | ⟨_, _, rfl, rfl, made, rfl⟩ |
    ⟨_, op, rfl, rfl, rfl⟩
  · exact laid_init made
  · exact laid_init made
  · exact laid_exec laid op

/-- A row is counted right exactly when it is like node number index, whatever the calls. -/
theorem bucket_use_size_right_iff [Zero V] (shm : Option (Segment V)) (history : List (Call V))
    (t : CHashShm V lines) (reached : play call history (.before shm) = some (.table t)) :
    (∀ index < lines, t.getBucketUseSize index = t.rowOccupied index ↔ LikeItsNode t index) ∧
      (RowsCounted t ↔ ∀ index < lines, LikeItsNode t index) := by
  have always : Always call TableLaid history (.before shm : Attached V lines) :=
    always_invariant (fun _ laid => laid) laid_step history trivial
  have laid : Laid t := always history _ (List.prefix_refl _) reached
  exact ⟨fun _ row => row_counted_iff t row, rows_counted_iff laid⟩

/-- A table of one row on a new segment, behind Set(1, 7) and Remove(1). -/
theorem emptied_row_right :
    ∃ t, play call [.init, .op (.set 1 7), .op (.remove 1)] (.before none : Attached Nat 1) =
        some (.table t) ∧
      (∀ index < 1, t.getBucketUseSize index = t.rowOccupied index ↔ LikeItsNode t index) ∧
      (RowsCounted t ↔ ∀ index < 1, LikeItsNode t index) :=
  ⟨_, rfl,
    bucket_use_size_right_iff none [.init, .op (.set 1 7), .op (.remove 1)] _ rfl⟩

/-- Key 1 goes to node 849 of the only row, and GetBucketUseSize(0) still reads node 0. -/
theorem stored_key_not_counted :
    ¬ ∀ history t, play call history (.before none : Attached Nat 1) = some (.table t) →
      RowsCounted t := by
  intro always
  have counted := always [.init, .op (.set 1 7)] _ rfl
  have like := (row_counted_iff _ (by decide)).mp (counted.1 0 (by decide))
  have same := like 849 (by decide)
  revert same
  decide

end UC.CHashShm
