import UC.BPlusTree.Node

/- An inner node as the alternating sequence child0, key0, child1, ..., childn. -/
namespace UC.BPlusTree.CNode
open UC.Memory UC.Slots

variable {K : Type}

/-- The node up to child i. -/
def upTo (n : CNode K) : Nat → List (Option Ptr ⊕ K)
  | 0 => [.inl (n.m_Childs 0)]
  | i + 1 => n.upTo i ++ [.inr (n.m_KeyValues i), .inl (n.m_Childs (i + 1))]

def sequence (n : CNode K) : List (Option Ptr ⊕ K) := n.upTo n.m_KeyNum

def keys (n : CNode K) : List K := slice n.m_KeyValues 0 n.m_KeyNum

def childs (n : CNode K) : List (Option Ptr) := slice n.m_Childs 0 (n.m_KeyNum + 1)

/-- Key i and the child slots from ci on moved down, as removeKey does it. -/
def withoutKey (n : CNode K) (i ci : Nat) : CNode K :=
  { n with
    m_KeyNum := n.m_KeyNum - 1
    m_KeyValues := shiftDown n.m_KeyValues i (n.m_KeyNum - 1)
    m_Childs := shiftDown n.m_Childs ci (ci + (n.m_KeyNum - i - 1)) }

section UpTo

variable {n m : CNode K}

theorem up_to_congr {i : Nat} (childs : ∀ j ≤ i, n.m_Childs j = m.m_Childs j)
    (keys : ∀ j < i, n.m_KeyValues j = m.m_KeyValues j) : n.upTo i = m.upTo i := by
  induction i with
  | zero => simp only [upTo, childs 0 (Nat.le_refl 0)]
  | succ i ih =>
    have before := ih (fun j inside => childs j (by omega)) fun j inside => keys j (by omega)
    simp only [upTo, before, keys i (Nat.lt_succ_self i), childs (i + 1) (Nat.le_refl _)]

/-- Two nodes of which one is the other behind its first child and key. -/
theorem up_to_succ {i : Nat} (childs : ∀ j ≤ i, n.m_Childs j = m.m_Childs (j + 1))
    (keys : ∀ j < i, n.m_KeyValues j = m.m_KeyValues (j + 1)) :
    m.upTo (i + 1) = .inl (m.m_Childs 0) :: .inr (m.m_KeyValues 0) :: n.upTo i := by
  induction i with
  | zero => simp [upTo, childs 0 (Nat.le_refl 0)]
  | succ i ih =>
    have before := ih (fun j inside => childs j (by omega)) fun j inside => keys j (by omega)
    rw [upTo, before, upTo, keys i (Nat.lt_succ_self i), childs (i + 1) (Nat.le_refl _)]
    rfl

theorem up_to_childs (i : Nat) : (n.upTo i).filterMap Sum.getLeft? = slice n.m_Childs 0 (i + 1) := by
  induction i with
  | zero => rfl
  | succ i ih =>
    rw [upTo, List.filterMap_append, ih, slice_succ n.m_Childs 0 (i + 1), Nat.zero_add]
    rfl

theorem sequence_childs (n : CNode K) : n.sequence.filterMap Sum.getLeft? = n.childs :=
  up_to_childs n.m_KeyNum

theorem joined_childs {l r : CNode K} {key : K}
    (joined : n.sequence = l.sequence ++ .inr key :: r.sequence) :
    n.childs = l.childs ++ r.childs := by
  have childs := congrArg (List.filterMap Sum.getLeft?) joined
  rw [List.filterMap_append, List.filterMap_cons] at childs
  simpa only [Sum.getLeft?_inr, sequence_childs] using childs

end UpTo

section Insert

variable (n : CNode K) (key : K) (child : Option Ptr)

theorem with_child_childs (c ci : Nat) :
    (n.withChild c ci key child).m_Childs = insertAt n.m_Childs ci (n.m_KeyNum + 1) child := rfl

theorem sequence_prepend :
    (n.withChild 0 0 key child).sequence = .inl child :: .inr key :: n.sequence := by
  have front := @up_to_succ _ n (n.withChild 0 0 key child) n.m_KeyNum
    (fun j inside =>
      (insert_behind n.m_Childs child (Nat.zero_le j) (Nat.lt_succ_of_le inside)).symm)
    (fun j inside => (insert_behind n.m_KeyValues key (Nat.zero_le j) inside).symm)
  rw [with_child_key, with_child_childs, insert_here] at front
  exact front

theorem sequence_append :
    (n.withChild n.m_KeyNum (n.m_KeyNum + 1) key child).sequence =
      n.sequence ++ [.inr key, .inl child] := by
  have before := @up_to_congr _ (n.withChild n.m_KeyNum (n.m_KeyNum + 1) key child) n n.m_KeyNum
    (fun j inside => insert_before _ _ _ (Nat.lt_succ_of_le inside))
    (fun j inside => insert_before _ _ _ inside)
  change upTo _ (n.m_KeyNum + 1) = _
  rw [upTo, before, with_child_key, with_child_childs, insert_here]
  rfl

end Insert

section Remove

variable {n : CNode K}

theorem sequence_without_last (some_key : 0 < n.m_KeyNum) :
    n.sequence = (n.withoutKey (n.m_KeyNum - 1) n.m_KeyNum).sequence ++
      [.inr (n.m_KeyValues (n.m_KeyNum - 1)), .inl (n.m_Childs n.m_KeyNum)] := by
  have same : (n.withoutKey (n.m_KeyNum - 1) n.m_KeyNum).upTo (n.m_KeyNum - 1) =
      n.upTo (n.m_KeyNum - 1) := by
    apply up_to_congr
    · intro j inside
      exact if_neg (by omega)
    · intro j inside
      exact if_neg (by omega)
  obtain ⟨k, count⟩ := Nat.exists_eq_succ_of_ne_zero some_key.ne'
  change n.sequence = upTo _ (n.m_KeyNum - 1) ++ _
  rw [same, sequence, count, Nat.succ_sub_one, upTo]

/-- removeKey(0, 0) drops the first key, but instead of the first child the last one is lost:
    the child before it then stands twice. -/
theorem sequence_without_first_iff (some_key : 0 < n.m_KeyNum) :
    n.sequence = .inl (n.m_Childs 0) :: .inr (n.m_KeyValues 0) :: (n.withoutKey 0 0).sequence ↔
      n.m_Childs (n.m_KeyNum - 1) = n.m_Childs n.m_KeyNum := by
  obtain ⟨k, count⟩ := Nat.exists_eq_succ_of_ne_zero some_key.ne'
  have shifted : n.withoutKey 0 0 = { n with
      m_KeyNum := k
      m_KeyValues := shiftDown n.m_KeyValues 0 k
      m_Childs := shiftDown n.m_Childs 0 k } := by
    simp [withoutKey, count]
  rw [sequence, sequence, shifted, count, Nat.succ_sub_one]
  cases k with
  | zero =>
    simp only [upTo, shift_down_none]
    simp [eq_comm]
  | succ k =>
    have front := @up_to_succ _ { n with
      m_KeyNum := k + 1
      m_KeyValues := shiftDown n.m_KeyValues 0 (k + 1)
      m_Childs := shiftDown n.m_Childs 0 (k + 1) } n k
      (fun j inside => shift_down_at n.m_Childs (Nat.zero_le j) (by omega))
      (fun j inside => shift_down_at n.m_KeyValues (Nat.zero_le j) (by omega))
    have key := shift_down_at n.m_KeyValues (Nat.zero_le k) (Nat.lt_succ_self k)
    have child := shift_down_above n.m_Childs (i := 0) (Nat.le_refl (k + 1))
    rw [upTo, front, upTo]
    simp only [key, child]
    simp [eq_comm]

theorem without_key_keys {i : Nat} (used : i < n.m_KeyNum) (ci : Nat) :
    (n.withoutKey i ci).keys = n.keys.eraseIdx i := slice_erase n.m_KeyValues used

theorem without_key_childs {i : Nat} (used : i < n.m_KeyNum) :
    (n.withoutKey i (i + 1)).childs = n.childs.eraseIdx (i + 1) := by
  have erased := slice_erase n.m_Childs (show i + 1 < n.m_KeyNum + 1 by omega)
  have span : i + 1 + (n.m_KeyNum - i - 1) = n.m_KeyNum := by omega
  have count : n.m_KeyNum - 1 + 1 = n.m_KeyNum := by omega
  unfold childs withoutKey
  dsimp only
  rw [span, count]
  exact erased

theorem without_key_slot {i : Nat} (used : i < n.m_KeyNum) :
    (n.withoutKey i (i + 1)).m_Childs (i + 1) =
      if i + 1 = n.m_KeyNum then n.m_Childs (i + 1) else n.m_Childs (i + 2) := by
  have span : i + 1 + (n.m_KeyNum - i - 1) = n.m_KeyNum := by omega
  unfold withoutKey
  dsimp only
  rw [span]
  split
  next last => exact shift_down_above _ (Nat.le_of_eq last.symm)
  next more => exact shift_down_at _ (Nat.le_refl _) (by omega)

end Remove

end UC.BPlusTree.CNode
