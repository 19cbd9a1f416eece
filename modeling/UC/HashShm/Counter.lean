import Mathlib.Data.Nat.Count
import UC.HashShm.FiniteMap
import UC.Lib.Histories

/- currentSize of a segment against its nodes, over Init, on a new or on an existing segment,
   and calls with any keys. Init sets the counter to zero and leaves the nodes; Remove(0) takes
   an empty node for a node with key 0. -/
namespace UC.CHashShm
open UC.Memory UC.HashShm UC.Histories

variable {V : Type} {lines : Nat}

def occupied (nodes : Mem (HashNode V)) (size : Nat) : Nat :=
  Nat.count (fun p => (nodes p).key ≠ 0) size

/-- What the segment under the key is before the first Init, and the table after it. -/
inductive Attached (V : Type) (lines : Nat) where
  | before (shm : Option (Segment V))
  | table (t : CHashShm V lines)

inductive Call (V : Type) where
  | init
  | op (op : Op V)

/-- A later Init meets the segment as it is. -/
def call [Zero V] : Attached V lines → Call V → Option (Attached V lines)
  | .before shm, .init => (init shm).map .table
  | .before _, .op _ => none
  | .table t, .init => (init (some t.shm)).map .table
  | .table t, .op op => some (.table (t.exec op).1)

def Exact : Attached V lines → Prop
  | .before _ => True
  | .table t => t.shm.head.currentSize.toNat = occupied t.shm.nodes t.maxSize

/-- Init meets empty nodes only, and Remove(0) no empty node among those it looks at. -/
def Counted : Attached V lines → Call V → Prop
  | .before (some shm), .init => ∀ p < PRIMER_TABLE_TATAL lines, (shm.nodes p).key = 0
  | .table t, .init => ∀ p < PRIMER_TABLE_TATAL lines, t.keyAt p = 0
  | .table t, .op (.remove key) => key = 0 → ∀ i < lines, t.keyAt (candidate lines key i) ≠ 0
  | _, _ => True

instance : (a : Attached V lines) → (c : Call V) → Decidable (Counted a c)
  | .before (some _), .init => inferInstanceAs (Decidable (∀ _, _ → _))
  | .table _, .init => inferInstanceAs (Decidable (∀ _, _ → _))
  | .table _, .op (.remove _) => inferInstanceAs (Decidable (_ → _))
  | .before none, .init | .before _, .op _ => .isTrue (by simp [Counted])
  | .table _, .op (.set _ _) | .table _, .op (.replace _ _) | .table _, .op (.get _ _)
  | .table _, .op .clear => .isTrue trivial

structure Sized (t : CHashShm V lines) : Prop where
  rows : lines ≤ PRIMER_TABLE_LEN
  size : t.maxSize = PRIMER_TABLE_TATAL lines
  exact : Exact (.table t)

def Invariant : Attached V lines → Prop
  | .before _ => True
  | .table t => Sized t

theorem call_cases [Zero V] {a b : Attached V lines} {c : Call V} (taken : call a c = some b) :
    (∃ shm t, a = .before shm ∧ c = .init ∧ init shm = some t ∧ b = .table t) ∨
    (∃ t t', a = .table t ∧ c = .init ∧ init (some t.shm) = some t' ∧ b = .table t') ∨
    (∃ t op, a = .table t ∧ c = .op op ∧ b = .table (t.exec op).1) := by
  cases a with
  | before shm =>
    cases c with
    | init =>
      obtain ⟨t, made, same⟩ := Option.map_eq_some_iff.mp taken
      exact .inl ⟨shm, t, rfl, rfl, made, same.symm⟩
    | op _ => cases taken
  | table t =>
    cases c with
    | init =>
      obtain ⟨t', made, same⟩ := Option.map_eq_some_iff.mp taken
      exact .inr (.inl ⟨t, t', rfl, rfl, made, same.symm⟩)
    | op op => exact .inr (.inr ⟨t, op, rfl, rfl, (Option.some.inj taken).symm⟩)

theorem count_changed_at {p q : Nat → Prop} [DecidablePred p] [DecidablePred q] {k n : Nat}
    (inside : k < n) (elsewhere : ∀ j, j ≠ k → (q j ↔ p j)) :
    Nat.count q n + (if p k then 1 else 0) = Nat.count p n + (if q k then 1 else 0) := by
  induction n with
  | zero => omega
  | succ n ih =>
    rw [Nat.count_succ, Nat.count_succ]
    by_cases last : k = n
    · subst last
      have below : Nat.count q k = Nat.count p k := by
        simp only [Nat.count_eq_card_filter_range]
        congr 1
        apply Finset.filter_congr
        intro j low
        exact elsewhere j (Nat.ne_of_lt (Finset.mem_range.mp low))
      omega
    · have same := elsewhere n (Ne.symm last)
      have step := ih (by omega)
      simp only [same]
      omega

theorem occupied_le (nodes : Mem (HashNode V)) (size : Nat) : occupied nodes size ≤ size :=
  Nat.count_le _

theorem occupied_store (nodes : Mem (HashNode V)) {pH size : Nat} (inside : pH < size)
    (node : HashNode V) :
    occupied (store nodes pH node) size + (if (nodes pH).key ≠ 0 then 1 else 0) =
      occupied nodes size + (if node.key ≠ 0 then 1 else 0) := by
  have change := @count_changed_at (fun p => (nodes p).key ≠ 0)
    (fun p => (store nodes pH node p).key ≠ 0) _ _ pH size inside (by
      intro j other
      simp only [store_other _ _ other])
  simpa only [occupied, store_same] using change

theorem occupied_zero {nodes : Mem (HashNode V)} {size : Nat} :
    occupied nodes size = 0 ↔ ∀ p < size, (nodes p).key = 0 := by
  simp only [occupied, Nat.count_iff_forall_not, not_not]

theorem total_small (rows : lines ≤ PRIMER_TABLE_LEN) :
    PRIMER_TABLE_TATAL lines < UInt64.size - 1 :=
  Nat.lt_of_le_of_lt (total_mono rows) (by decide)

section Steps
variable {t : CHashShm V lines} (sized : Sized t)
include sized

theorem counter_is : t.shm.head.currentSize.toNat = occupied t.shm.nodes t.maxSize := sized.exact

theorem candidate_inside {i : Nat} (row : i < lines) (key : UInt64) :
    candidate lines key i < t.maxSize := by
  rw [sized.size]
  exact candidate_lt sized.rows row key

theorem sized_moved (p : Nat) : Sized ({ t with lastFound := p } : CHashShm V lines) :=
  ⟨sized.rows, sized.size, sized.exact⟩

theorem sized_overwrite {pH : Nat} (inside : pH < t.maxSize) {node : HashNode V}
    (same : node.key = t.keyAt pH) : Sized (t.writeNode pH node t.shm.head.currentSize) := by
  refine ⟨sized.rows, sized.size, ?_⟩
  have change := occupied_store t.shm.nodes inside node
  have exact_before := counter_is sized
  change t.shm.head.currentSize.toNat = occupied (store t.shm.nodes pH node) t.maxSize
  change node.key = (t.shm.nodes pH).key at same
  rw [same] at change
  omega

theorem sized_fill {pH : Nat} (inside : pH < t.maxSize) {node : HashNode V}
    (free : t.keyAt pH = 0) (filled : node.key ≠ 0) :
    Sized (t.writeNode pH node (t.shm.head.currentSize + 1)) := by
  refine ⟨sized.rows, sized.size, ?_⟩
  have change := occupied_store t.shm.nodes inside node
  have exact_before := counter_is sized
  have bound := occupied_le (store t.shm.nodes pH node) t.maxSize
  have small := total_small sized.rows
  have size := sized.size
  change (t.shm.head.currentSize + 1).toNat = occupied (store t.shm.nodes pH node) t.maxSize
  change (t.shm.nodes pH).key = 0 at free
  simp only [free, filled, ne_eq, not_true_eq_false, not_false_eq_true, if_true, if_false] at change
  rw [UInt64.toNat_add]
  simp only [UInt64.size, UInt64.reduceToNat] at small ⊢
  omega

theorem sized_empty {pH : Nat} (inside : pH < t.maxSize) {node : HashNode V}
    (full : t.keyAt pH ≠ 0) (emptied : node.key = 0) :
    Sized (t.writeNode pH node (t.shm.head.currentSize - 1)) := by
  refine ⟨sized.rows, sized.size, ?_⟩
  have change := occupied_store t.shm.nodes inside node
  have exact_before := counter_is sized
  change (t.shm.head.currentSize - 1).toNat = occupied (store t.shm.nodes pH node) t.maxSize
  change (t.shm.nodes pH).key ≠ 0 at full
  simp only [full, emptied, ne_eq, not_true_eq_false, not_false_eq_true, if_true, if_false] at change
  have one : (1 : UInt64) ≤ t.shm.head.currentSize := by
    rw [UInt64.le_iff_toNat_le]
    simp only [UInt64.reduceToNat]
    omega
  rw [UInt64.toNat_sub_of_le _ _ one]
  simp only [UInt64.reduceToNat]
  omega

theorem sized_insert {key : UInt64} (absent : ∀ i < lines, t.keyAt (candidate lines key i) ≠ key)
    (value : V) : Sized (t.insertRows key value (List.range lines)).1 := by
  rcases insert_cases sized.rows sized.size key value with ⟨i, row, free, done⟩ | ⟨_, done⟩
  · rw [done]
    apply sized_fill sized (candidate_inside sized row key) free
    -- key 0 would have been found in that node
    rintro zero
    change key = 0 at zero
    rw [zero] at free absent
    exact absent i row free
  · rw [done]
    exact sized

theorem sized_set (key : UInt64) (value : V) : Sized (t.set key value).1 := by
  rcases find_cases sized.rows sized.size key with ⟨i, _, _, found⟩ | ⟨absent, found⟩
  · simp only [set, found]
    exact sized_moved sized _
  · simp only [set, found]
    exact sized_insert sized absent value

theorem sized_replace (key : UInt64) (value : V) : Sized (t.replace key value).1 := by
  rcases find_cases sized.rows sized.size key with ⟨i, row, _, found⟩ | ⟨absent, found⟩
  · simp only [replace, found]
    exact sized_overwrite (sized_moved sized (candidate lines key i))
      (candidate_inside sized row key) rfl
  · simp only [replace, found]
    exact sized_insert sized absent value

theorem sized_get (key : UInt64) (value : V) : Sized (t.get key value).1 := by
  rcases find_cases sized.rows sized.size key with ⟨i, _, _, found⟩ | ⟨_, found⟩
  · simp only [get, found]
    exact sized_moved sized _
  · simp only [get, found]
    exact sized

theorem sized_remove {key : UInt64}
    (counted : key = 0 → ∀ i < lines, t.keyAt (candidate lines key i) ≠ 0) :
    Sized (t.remove key).1 := by
  rcases find_cases sized.rows sized.size key with ⟨i, row, holds, found⟩ | ⟨_, found⟩
  · simp only [remove, found]
    apply sized_empty (sized_moved sized (candidate lines key i)) (candidate_inside sized row key)
    · change t.keyAt (candidate lines key i) ≠ 0
      intro empty
      exact counted (holds.symm.trans empty) i row empty
    · rfl
  · simp only [remove, found]
    exact sized

/-- Remove(0) that finds an empty node takes one from the counter and no node. -/
theorem remove_zero_drifts {i : Nat} (row : i < lines) (empty : t.keyAt (candidate lines 0 i) = 0) :
    ¬ Exact (.table (t.remove 0).1) := by
  intro exact_after
  rcases find_cases sized.rows sized.size 0 with ⟨j, hit, holds, found⟩ | ⟨absent, _⟩
  · simp only [remove, found] at exact_after
    have inside := candidate_inside sized hit 0
    have change := occupied_store t.shm.nodes inside
      { t.shm.nodes (candidate lines 0 j) with key := 0 }
    have exact_before := counter_is sized
    change (t.shm.head.currentSize - 1).toNat = occupied (store t.shm.nodes _
      { t.shm.nodes (candidate lines 0 j) with key := 0 }) t.maxSize at exact_after
    change (t.shm.nodes (candidate lines 0 j)).key = 0 at holds
    simp only [holds, ne_eq, not_true_eq_false, if_false, Nat.add_zero] at change
    rw [change, ← exact_before, UInt64.toNat_sub] at exact_after
    have bound := t.shm.head.currentSize.toNat_lt
    simp only [UInt64.reduceToNat] at exact_after
    omega
  · exact absent i row empty

end Steps

section Init
variable [Zero V]

/-- The counter is right behind Init when it meets empty nodes, and only then. -/
theorem init_exact_iff {shm : Option (Segment V)} {t : CHashShm V lines}
    (made : init shm = some t) : Exact (.table t) ↔
      ∀ p < PRIMER_TABLE_TATAL lines, ((shm.getD zeroed).nodes p).key = 0 := by
  simp only [init] at made
  split at made
  · cases made
  · cases made
    rw [← occupied_zero]
    exact eq_comm

theorem init_sized {shm : Option (Segment V)} {t : CHashShm V lines} (made : init shm = some t)
    (exact_now : Exact (.table t)) : Sized t := by
  simp only [init] at made
  split at made
  · cases made
  · rename_i rows
    cases made
    exact ⟨by omega, rfl, exact_now⟩

theorem counted_init_iff (shm : Option (Segment V)) :
    Counted (.before shm : Attached V lines) .init ↔
      ∀ p < PRIMER_TABLE_TATAL lines, ((shm.getD zeroed).nodes p).key = 0 := by
  cases shm with
  | none => exact ⟨fun _ _ _ => rfl, fun _ => trivial⟩
  | some shm => exact Iff.rfl

theorem invariant_step (a : Attached V lines) (c : Call V) (b : Attached V lines)
    (inv : Invariant a) (counted : Counted a c) (taken : call a c = some b) : Invariant b := by
  rcases call_cases taken with ⟨shm, t, rfl, rfl, made, rfl⟩ | ⟨t, t', rfl, rfl, made, rfl⟩ |
    ⟨t, op, rfl, rfl, rfl⟩
  · exact init_sized made ((init_exact_iff made).mpr ((counted_init_iff shm).mp counted))
  · exact init_sized made ((init_exact_iff made).mpr counted)
  · have sized : Sized t := inv
    cases op with
    | set key value => exact sized_set sized key value
    | replace key value => exact sized_replace sized key value
    | remove key => exact sized_remove sized counted
    | get key value => exact sized_get sized key value
    | clear => exact ⟨sized.rows, sized.size, (occupied_zero.mpr fun _ _ => rfl).symm⟩

theorem uncounted_drifts (a : Attached V lines) (c : Call V) (b : Attached V lines)
    (inv : Invariant a) (uncounted : ¬ Counted a c) (taken : call a c = some b) : ¬ Exact b := by
  intro exact_now
  rcases call_cases taken with ⟨shm, t, rfl, rfl, made, rfl⟩ | ⟨t, t', rfl, rfl, made, rfl⟩ |
    ⟨t, op, rfl, rfl, rfl⟩
  · exact uncounted ((counted_init_iff shm).mpr ((init_exact_iff made).mp exact_now))
  · exact uncounted ((init_exact_iff made).mp exact_now)
  · have sized : Sized t := inv
    cases op with
    | remove key =>
      simp only [Counted, not_forall, not_not] at uncounted
      obtain ⟨zero, i, row, empty⟩ := uncounted
      subst zero
      exact remove_zero_drifts sized row empty exact_now
    | set _ _ | replace _ _ | get _ _ | clear => exact absurd trivial uncounted

/-- The counter is right after every call of exactly the histories whose calls are counted. -/
theorem counter_exact_iff (shm : Option (Segment V)) (history : List (Call V))
    (possible : (play call history (.before shm : Attached V lines)).isSome) :
    Always call Exact history (.before shm : Attached V lines) ↔
      Lawful call Counted history (.before shm : Attached V lines) := by
  have start : Invariant (.before shm : Attached V lines) := trivial
  have holds : ∀ a : Attached V lines, Invariant a → Exact a := by
    intro a inv
    cases a with
    | before _ => trivial
    | table _ => exact Sized.exact inv
  exact always_iff_lawful holds invariant_step uncounted_drifts history start possible

end Init

theorem counter_exact_on_new_segment :
    Always call Exact [.init, .op (.set 5 7), .op (.set 9 1), .op (.remove 5)]
      (.before none : Attached Nat 2) :=
  (counter_exact_iff none _ rfl).mpr (by decide)

/-- Remove(0) on a new segment, and a second Init behind a Set. -/
theorem counter_drifts :
    ¬ Always call Exact [.init, .op (.remove 0)] (.before none : Attached Nat 1) ∧
      ¬ Always call Exact [.init, .op (.set 5 7), .init] (.before none : Attached Nat 1) := by
  constructor
  · intro always
    have wrapped := always _ _ (List.prefix_refl _) rfl
    -- 2 ^ 64 - 1 nodes are more than there are
    exact absurd (Nat.le_trans (Nat.le_of_eq wrapped) (occupied_le _ _)) (by decide)
  · intro always
    have lost := always _ _ (List.prefix_refl _) rfl
    exact absurd (occupied_zero.mp lost.symm 853 (by decide)) (by decide)

end UC.CHashShm
