import UC.BPlusTree.Rebalance

/- Borrowing between inner nodes and merging them, on any heap: which subtrees stay and which
   node is deleted. -/
namespace UC.BPlusTree
open UC.Memory UC.Slots

variable {K : Type}

/-- The left and the right one of a borrower and its sibling. -/
def Direction.leftOf (this sibling : Ptr) : Direction → Ptr
  | .LEFT => sibling
  | .RIGHT => this

def Direction.rightOf (this sibling : Ptr) : Direction → Ptr
  | .LEFT => this
  | .RIGHT => sibling

/-- Two neighbours under an inner node, with key keyIndex between them. -/
structure Adjacent (h : Heap K) (parent left right : Ptr) (keyIndex : Nat) (m : CNode K) :
    Prop where
  cell : h.cells parent = some m
  type : m.m_Type = .INTERNAL
  index : keyIndex < m.m_KeyNum
  few : m.m_KeyNum ≤ MAXNUM_KEY
  child_left : m.m_Childs keyIndex = some left
  child_right : m.m_Childs (keyIndex + 1) = some right
  apart : left ≠ right
  above_left : parent ≠ left
  above_right : parent ≠ right

/-- (left node) ++ [parent separator] ++ (right node). -/
def Heap.joined (h : Heap K) (left parent right : Ptr) (keyIndex : Nat) :
    Option (List (Option Ptr ⊕ K)) := do
  let l ← h.cells left
  let m ← h.cells parent
  let r ← h.cells right
  some (l.sequence ++ .inr (m.m_KeyValues keyIndex) :: r.sequence)

structure KeepsSubtrees (h h' : Heap K) (d : Direction) (this sibling parent : Ptr)
    (keyIndex : Nat) : Prop where
  sequence : h'.joined (d.leftOf this sibling) parent (d.rightOf this sibling) keyIndex =
    h.joined (d.leftOf this sibling) parent (d.rightOf this sibling) keyIndex
  borrower : h'.keyNum this = (h.keyNum this).map (· + 1)
  lender : (h'.keyNum sibling).map (· + 1) = h.keyNum sibling
  above : ∀ m, h.cells parent = some m → ∃ m', h'.cells parent = some m' ∧
    m'.m_Type = m.m_Type ∧ m'.m_KeyNum = m.m_KeyNum ∧ m'.m_Childs = m.m_Childs ∧
    ∀ i, i ≠ keyIndex → m'.m_KeyValues i = m.m_KeyValues i
  others : ∀ p, p ≠ this → p ≠ parent → p ≠ sibling → h'.cells p = h.cells p

section Borrow

variable {h : Heap K} {this sibling parent : Ptr} {m n s n' m' s' : CNode K} {keyIndex : Nat}

theorem joined_cells {left right : Ptr} {l r : CNode K} (cell_l : h.cells left = some l)
    (cell_m : h.cells parent = some m) (cell_r : h.cells right = some r) :
    h.joined left parent right keyIndex =
      some (l.sequence ++ .inr (m.m_KeyValues keyIndex) :: r.sequence) := by
  unfold Heap.joined
  rw [cell_l, cell_m, cell_r]
  rfl

/-- Of the three nodes written only the order of children and keys is in question. -/
theorem keeps_subtrees_iff (cell_n : h.cells this = some n) (cell_s : h.cells sibling = some s)
    (cell_m : h.cells parent = some m) (ne : this ≠ sibling) (ne_n : parent ≠ this)
    (ne_s : parent ≠ sibling) (more : n'.m_KeyNum = n.m_KeyNum + 1)
    (less : s'.m_KeyNum + 1 = s.m_KeyNum) (key : K) (d : Direction) :
    KeepsSubtrees h (h.rewritten this parent sibling n'
        { m with m_KeyValues := store m.m_KeyValues keyIndex key } s') d this sibling parent
        keyIndex ↔
      (h.rewritten this parent sibling n'
        { m with m_KeyValues := store m.m_KeyValues keyIndex key } s').joined
          (d.leftOf this sibling) parent (d.rightOf this sibling) keyIndex =
        h.joined (d.leftOf this sibling) parent (d.rightOf this sibling) keyIndex := by
  refine ⟨KeepsSubtrees.sequence, fun same => ⟨same, ?_, ?_, ?_, ?_⟩⟩
  · unfold Heap.keyNum
    rw [Heap.rewritten_first ne_n.symm ne, cell_n, Option.map_some, Option.map_some, more]
    rfl
  · unfold Heap.keyNum
    rw [Heap.rewritten_third, cell_s]
    exact congrArg some less
  · intro m₁ cell
    cases cell_m.symm.trans cell
    refine ⟨_, Heap.rewritten_second ne_s, rfl, rfl, rfl, ?_⟩
    intro i other
    exact store_other _ _ other
  · intro p other_n other_m other_s
    exact Heap.rewritten_others other_n other_m other_s

theorem borrow_left_keeps [LinearOrder K] (near : Adjacent h parent sibling this keyIndex m)
    (cell_n : h.cells this = some n) (cell_s : h.cells sibling = some s)
    (inner_n : n.m_Type = .INTERNAL) (inner_s : s.m_Type = .INTERNAL)
    (room : n.m_KeyNum < MAXNUM_KEY) (some_key : 0 < s.m_KeyNum) (few : s.m_KeyNum ≤ MAXNUM_KEY) :
    ∃ h', h.borrowFrom this sibling parent keyIndex .LEFT = some h' ∧
      KeepsSubtrees h h' .LEFT this sibling parent keyIndex := by
  have index := Nat.lt_of_lt_of_le near.index near.few
  have run := Heap.borrow_inner_left_run cell_n cell_s near.cell inner_n inner_s room some_key few
    index near.apart.symm near.above_right near.above_left
  refine ⟨_, run, ?_⟩
  rw [keeps_subtrees_iff cell_n cell_s near.cell near.apart.symm near.above_right near.above_left
    rfl (Nat.succ_pred_eq_of_pos some_key)]
  have front := n.sequence_prepend (m.m_KeyValues keyIndex) (s.m_Childs s.m_KeyNum)
  have back := CNode.sequence_without_last some_key
  unfold Direction.leftOf Direction.rightOf
  rw [joined_cells cell_s near.cell cell_n,
    joined_cells (Heap.rewritten_third) (Heap.rewritten_second near.above_left)
      (Heap.rewritten_first near.above_right.symm near.apart.symm), front, back]
  simp only [store_same, List.append_assoc]
  rfl

theorem borrow_right_keeps_iff [LinearOrder K] (near : Adjacent h parent this sibling keyIndex m)
    (cell_n : h.cells this = some n) (cell_s : h.cells sibling = some s)
    (inner_n : n.m_Type = .INTERNAL) (inner_s : s.m_Type = .INTERNAL)
    (room : n.m_KeyNum < MAXNUM_KEY) (some_key : 0 < s.m_KeyNum) (few : s.m_KeyNum ≤ MAXNUM_KEY) :
    ∃ h', h.borrowFrom this sibling parent keyIndex .RIGHT = some h' ∧
      (KeepsSubtrees h h' .RIGHT this sibling parent keyIndex ↔
        s.m_Childs (s.m_KeyNum - 1) = s.m_Childs s.m_KeyNum) := by
  have index := Nat.lt_of_lt_of_le near.index near.few
  have run := Heap.borrow_inner_right_run cell_n cell_s near.cell inner_n inner_s room some_key
    few index near.apart near.above_left near.above_right
  refine ⟨_, run, ?_⟩
  rw [keeps_subtrees_iff cell_n cell_s near.cell near.apart near.above_left near.above_right
    rfl (Nat.succ_pred_eq_of_pos some_key)]
  have back := n.sequence_append (m.m_KeyValues keyIndex) (s.m_Childs 0)
  unfold Direction.leftOf Direction.rightOf
  rw [joined_cells cell_n near.cell cell_s,
    joined_cells (Heap.rewritten_first near.above_left.symm near.apart)
      (Heap.rewritten_second near.above_right) (Heap.rewritten_third), back,
    ← CNode.sequence_without_first_iff some_key]
  simp only [store_same, List.append_assoc, Option.some_inj, List.append_cancel_left_eq]
  simp [eq_comm]

/-- Borrowing from the left always keeps all subtrees; borrowing from the right loses the
    last child of the sibling, unless the child before it is the same. -/
theorem borrow_keeps_subtrees_iff [LinearOrder K] {d : Direction}
    (near : Adjacent h parent (d.leftOf this sibling) (d.rightOf this sibling) keyIndex m)
    (cell_n : h.cells this = some n) (cell_s : h.cells sibling = some s)
    (inner_n : n.m_Type = .INTERNAL) (inner_s : s.m_Type = .INTERNAL)
    (low : n.m_KeyNum = MINNUM_KEY) (more : MINNUM_KEY < s.m_KeyNum)
    (few : s.m_KeyNum ≤ MAXNUM_KEY) :
    ∃ h', h.borrowFrom this sibling parent keyIndex d = some h' ∧
      (KeepsSubtrees h h' d this sibling parent keyIndex ↔
        d = .LEFT ∨ s.m_Childs (s.m_KeyNum - 1) = s.m_Childs s.m_KeyNum) := by
  have room : n.m_KeyNum < MAXNUM_KEY := by
    rw [low]
    decide
  have some_key := Nat.zero_lt_of_lt more
  cases d with
  | LEFT =>
    obtain ⟨h', run, keeps⟩ :=
      borrow_left_keeps near cell_n cell_s inner_n inner_s room some_key few
    exact ⟨h', run, iff_of_true keeps (.inl rfl)⟩
  | RIGHT =>
    obtain ⟨h', run, keeps⟩ :=
      borrow_right_keeps_iff near cell_n cell_s inner_n inner_s room some_key few
    refine ⟨h', run, keeps.trans ?_⟩
    simp

end Borrow

section Bushy

/-- A leaf with the keys 10 p .. 10 p + 5. -/
def bushyLeaf (left right : Option Ptr) (p : Ptr) : CNode Int :=
  { m_Type := .LEAF
    m_KeyNum := MINNUM_LEAF
    m_KeyValues := fun i => 10 * p + i
    m_Childs := fun _ => none
    m_LeftSibling := left
    m_RightSibling := right
    m_Datas := fun i => 10 * p + i }

/-- An inner node over the leaves 10 p, 10 p + 1, ... -/
def bushyInner (count p : Nat) : CNode Int :=
  { m_Type := .INTERNAL
    m_KeyNum := count
    m_KeyValues := fun i => 10 * (10 * p + i + 1)
    m_Childs := fun i => some (10 * p + i)
    m_LeftSibling := none
    m_RightSibling := none
    m_Datas := fun _ => 0 }

def bushyRoot : CNode Int :=
  { bushyInner 2 0 with
    m_KeyValues := fun i => 100 * (i + 2)
    m_Childs := fun i => some (i + 1) }

/-- A tree of three levels: root 0 over the inner nodes 1, 2 and 3 with seven, seven and
    eight leaves. -/
def bushy : Heap Int :=
  { cells := fun p =>
      if p = 0 then some bushyRoot
      else if p = 1 ∨ p = 2 then some (bushyInner 6 p)
      else if p = 3 then some (bushyInner 7 p)
      else if p = 10 then some (bushyLeaf none (some 11) p)
      else if p = 16 ∨ p = 26 then some (bushyLeaf (some (p - 1)) (some (p + 4)) p)
      else if p = 20 ∨ p = 30 then some (bushyLeaf (some (p - 4)) (some (p + 1)) p)
      else if p = 37 then some (bushyLeaf (some 36) none p)
      else if 10 < p ∧ p < 16 ∨ 20 < p ∧ p < 26 ∨ 30 < p ∧ p < 37 then
        some (bushyLeaf (some (p - 1)) (some (p + 1)) p)
      else none
    next := 38
    raw := fun _ => bushyRoot }

theorem bushy_adjacent {i : Nat} (inside : i < 2) :
    Adjacent bushy 0 (i + 1) (i + 2) i bushyRoot := by
  constructor
  · rfl
  · rfl
  · exact inside
  · decide
  · rfl
  · rfl
  · exact (Nat.lt_succ_self (i + 1)).ne
  · exact (Nat.succ_ne_zero i).symm
  · exact (Nat.succ_ne_zero (i + 1)).symm

theorem bushy_borrow_from_right :
    ∃ h', bushy.borrowFrom 2 3 0 1 .RIGHT = some h' ∧
      (KeepsSubtrees bushy h' .RIGHT 2 3 0 1 ↔
        Direction.RIGHT = .LEFT ∨ (bushyInner 7 3).m_Childs 6 = (bushyInner 7 3).m_Childs 7) :=
  @borrow_keeps_subtrees_iff _ _ 2 3 0 _ _ _ 1 _ .RIGHT (bushy_adjacent (by decide))
    (show bushy.cells 2 = some (bushyInner 6 2) from rfl)
    (show bushy.cells 3 = some (bushyInner 7 3) from rfl) rfl rfl rfl (by decide) (by decide)

/-- Leaf 37 is lost, and leaf 36 stands twice. -/
theorem borrow_from_right_loses_leaf :
    Adjacent bushy 0 2 3 1 bushyRoot ∧
    ∃ h', bushy.borrowFrom 2 3 0 1 .RIGHT = some h' ∧
      (h'.cells 3).map CNode.childs =
        some [some 31, some 32, some 33, some 34, some 35, some 36, some 36] ∧
      ¬ KeepsSubtrees bushy h' .RIGHT 2 3 0 1 := by
  have ends : (bushy.borrowFrom 2 3 0 1 .RIGHT).any (fun h' =>
      (h'.cells 3).map CNode.childs =
        some [some 31, some 32, some 33, some 34, some 35, some 36, some 36] ∧
      h'.joined 2 0 3 1 ≠ bushy.joined 2 0 3 1) = true := by
    decide +kernel
  obtain ⟨h', run, last⟩ := (Option.any_eq_true _ _).mp ends
  obtain ⟨childs, differ⟩ := of_decide_eq_true last
  exact ⟨bushy_adjacent (by decide), h', run, childs, fun keeps => differ keeps.sequence⟩

end Bushy

def Deleted (h h' : Heap K) (p : Ptr) : Prop := (h.cells p).isSome ∧ h'.cells p = none

structure FreesMerged (h h' : Heap K) (this parent child : Ptr) (keyIndex : Nat) : Prop where
  sequence : (h'.cells this).map CNode.sequence = h.joined this parent child keyIndex
  above : ∀ m, h.cells parent = some m → ∃ m', h'.cells parent = some m' ∧
    m'.keys = m.keys.eraseIdx keyIndex ∧ m'.childs = m.childs.eraseIdx (keyIndex + 1)
  freed : ∀ p, Deleted h h' p ↔ p = child
  referenced : ∀ q x p, q = parent ∨ q = this → h'.cells q = some x → some p ∈ x.childs →
    ¬ Deleted h h' p

section Merge

variable {h : Heap K} {this child parent : Ptr} {m n c n' : CNode K} {keyIndex : Nat}

def merging (h : Heap K) (this parent : Ptr) (n' m : CNode K) (keyIndex : Nat) : Heap K :=
  (h.write this n').write parent (m.withoutKey keyIndex (keyIndex + 1))

theorem merging_parent :
    (merging h this parent n' m keyIndex).cells parent =
      some (m.withoutKey keyIndex (keyIndex + 1)) := Heap.write_here _ _ _

theorem merging_this (ne : this ≠ parent) :
    (merging h this parent n' m keyIndex).cells this = some n' :=
  (Heap.write_elsewhere _ _ ne).trans (Heap.write_here _ _ _)

theorem merging_others {p : Ptr} (ne : p ≠ parent) (ne' : p ≠ this) :
    (merging h this parent n' m keyIndex).cells p = h.cells p :=
  (Heap.write_elsewhere _ _ ne).trans (Heap.write_elsewhere _ _ ne')

theorem frees_merged_iff (near : Adjacent h parent this child keyIndex m)
    (cell_n : h.cells this = some n) (cell_c : h.cells child = some c)
    (merged : n'.sequence = n.sequence ++ .inr (m.m_KeyValues keyIndex) :: c.sequence)
    {h' : Heap K}
    (deleted : (merging h this parent n' m keyIndex).delete (some child) = some h') :
    FreesMerged h h' this parent child keyIndex ↔
      some child ∉ m.childs.eraseIdx (keyIndex + 1) ∧ some child ∉ n.childs ∧
        some child ∉ c.childs := by
  obtain ⟨_, cells⟩ := Heap.delete_cells deleted
  have here := near.above_left
  have cell_parent : h'.cells parent = some (m.withoutKey keyIndex (keyIndex + 1)) := by
    rw [cells, if_neg near.above_right, merging_parent]
  have cell_this : h'.cells this = some n' := by
    rw [cells, if_neg near.apart, merging_this here.symm]
  have freed : ∀ p, Deleted h h' p ↔ p = child := by
    intro p
    constructor
    · rintro ⟨live, gone⟩
      by_contra other
      have parent_other : p ≠ parent := by
        rintro rfl
        cases gone.symm.trans cell_parent
      have this_other : p ≠ this := by
        rintro rfl
        cases gone.symm.trans cell_this
      rw [cells, if_neg other, merging_others parent_other this_other] at gone
      rw [gone] at live
      cases live
    · rintro rfl
      rw [Deleted, cell_c, cells, if_pos rfl]
      exact ⟨rfl, rfl⟩
  have left : n'.childs = n.childs ++ c.childs := CNode.joined_childs merged
  have above := CNode.without_key_childs near.index
  constructor
  · intro frees
    have gone := (freed child).mpr rfl
    refine ⟨fun mem => ?_, fun mem => ?_, fun mem => ?_⟩
    · exact frees.referenced parent _ child (.inl rfl) cell_parent (by rwa [above]) gone
    · exact frees.referenced this _ child (.inr rfl) cell_this
        (by rw [left]; exact List.mem_append_left _ mem) gone
    · exact frees.referenced this _ child (.inr rfl) cell_this
        (by rw [left]; exact List.mem_append_right _ mem) gone
  · rintro ⟨no_parent, no_left, no_right⟩
    refine ⟨?_, ?_, freed, ?_⟩
    · rw [cell_this, joined_cells cell_n near.cell cell_c, Option.map_some, merged]
    · intro m₁ cell
      cases near.cell.symm.trans cell
      exact ⟨_, cell_parent, CNode.without_key_keys near.index _, above⟩
    · rintro q x p node cell mem gone
      obtain rfl := (freed p).mp gone
      rcases node with rfl | rfl
      · cases cell_parent.symm.trans cell
        rw [above] at mem
        exact no_parent mem
      · cases cell_this.symm.trans cell
        rw [left] at mem
        exact (List.mem_append.mp mem).elim no_left no_right

/-- The node deleted is another one, and the parent still has it. -/
theorem not_frees_merged (near : Adjacent h parent this child keyIndex m)
    (cell_n : h.cells this = some n) (cell_c : h.cells child = some c) {x : Option Ptr}
    (next : x ∈ (m.withoutKey keyIndex (keyIndex + 1)).childs) {h' : Heap K}
    (deleted : (merging h this parent n' m keyIndex).delete x = some h') :
    ¬ FreesMerged h h' this parent child keyIndex := by
  intro frees
  cases x with
  | none =>
    cases deleted
    have gone := ((frees.freed child).mpr rfl).2
    rw [merging_others near.above_right.symm near.apart.symm, cell_c] at gone
    cases gone
  | some p =>
    obtain ⟨live, cells⟩ := Heap.delete_cells deleted
    obtain ⟨m₁, cell_parent, _⟩ := frees.above m near.cell
    have gone : h'.cells p = none := by rw [cells, if_pos rfl]
    have other : p ≠ parent := by
      rintro rfl
      cases gone.symm.trans cell_parent
    rw [cells, if_neg other.symm, merging_parent] at cell_parent
    cases cell_parent
    have was_live : (h.cells p).isSome := by
      by_cases this_one : p = this
      · rw [this_one, cell_n]
        rfl
      · rwa [merging_others other this_one] at live
    refine frees.referenced parent _ p (.inl rfl) ?_ next ⟨was_live, gone⟩
    rw [cells, if_neg other.symm, merging_parent]

/-- Two nodes are merged and the right one is deleted just when the key between them is the
    last one of the parent and no other slot of the nodes left names the right one. -/
theorem merge_frees_merged_iff [LinearOrder K] (near : Adjacent h parent this child keyIndex m)
    (cell_n : h.cells this = some n) (cell_c : h.cells child = some c)
    (inner_n : n.m_Type = .INTERNAL) (low_n : n.m_KeyNum = MINNUM_KEY)
    (low_c : c.m_KeyNum = MINNUM_KEY) :
    (∃ h', h.mergeChild this parent child keyIndex = some h' ∧
        FreesMerged h h' this parent child keyIndex) ↔
      keyIndex + 1 = m.m_KeyNum ∧ some child ∉ m.childs.eraseIdx (keyIndex + 1) ∧
        some child ∉ n.childs ∧ some child ∉ c.childs := by
  have removed : m.removeKey keyIndex (keyIndex + 1) =
      some (m.withoutKey keyIndex (keyIndex + 1)) :=
    CNode.remove_inner_spec near.type near.index near.few (Nat.le_refl _)
  obtain ⟨n', run, _, merged⟩ := Heap.merge_inner_run cell_n cell_c near.cell inner_n low_n low_c
    removed near.apart near.above_left
  have slot := CNode.without_key_slot near.index
  change (∃ h', h.mergeChild this parent child keyIndex = some h' ∧ _) ↔ _
  rw [run]
  change (∃ h', (merging h this parent n' m keyIndex).delete _ = some h' ∧ _) ↔ _
  by_cases last : keyIndex + 1 = m.m_KeyNum
  · rw [slot, if_pos last, near.child_right, and_iff_right last]
    obtain ⟨h', deleted⟩ := Heap.delete_live
      ((merging_others near.above_right.symm near.apart.symm).trans cell_c)
    rw [deleted, ← frees_merged_iff near cell_n cell_c merged deleted]
    simp
  · refine iff_of_false ?_ fun holds => last holds.1
    rintro ⟨h', deleted, frees⟩
    refine not_frees_merged near cell_n cell_c ?_ deleted frees
    -- behind key keyIndex the parent has one more child
    have inside := near.index
    refine mem_slice.mpr ⟨keyIndex + 1, ?_, by rw [Nat.zero_add]⟩
    change keyIndex + 1 < m.m_KeyNum - 1 + 1
    omega

end Merge

theorem bushy_merge_first :
    (∃ h', bushy.mergeChild 1 0 2 0 = some h' ∧ FreesMerged bushy h' 1 0 2 0) ↔
      0 + 1 = bushyRoot.m_KeyNum ∧ some 2 ∉ bushyRoot.childs.eraseIdx (0 + 1) ∧
        some 2 ∉ (bushyInner 6 1).childs ∧ some 2 ∉ (bushyInner 6 2).childs :=
  merge_frees_merged_iff (bushy_adjacent (by decide))
    (show bushy.cells 1 = some (bushyInner 6 1) from rfl)
    (show bushy.cells 2 = some (bushyInner 6 2) from rfl) rfl rfl rfl

/-- Node 3 is deleted, though the root still has it; node 2 stays and has no parent. -/
theorem merge_deletes_next_child :
    Adjacent bushy 0 1 2 0 bushyRoot ∧
    (∃ h', bushy.mergeChild 1 0 2 0 = some h' ∧ Deleted bushy h' 3 ∧ ¬ Deleted bushy h' 2 ∧
      (h'.cells 0).map CNode.childs = some [some 1, some 3]) ∧
    ¬ ∃ h', bushy.mergeChild 1 0 2 0 = some h' ∧ FreesMerged bushy h' 1 0 2 0 := by
  have ends : (bushy.mergeChild 1 0 2 0).any (fun h' =>
      ((bushy.cells 3).isSome ∧ (h'.cells 3).isNone) ∧ (h'.cells 2).isSome ∧
      (h'.cells 0).map CNode.childs = some [some 1, some 3]) = true := by
    decide +kernel
  obtain ⟨h', run, last⟩ := (Option.any_eq_true _ _).mp ends
  obtain ⟨⟨live, gone⟩, stays, childs⟩ := of_decide_eq_true last
  have deleted : Deleted bushy h' 3 := ⟨live, Option.isNone_iff_eq_none.mp gone⟩
  refine ⟨bushy_adjacent (by decide), ⟨h', run, deleted, ?_, childs⟩, ?_⟩
  · rintro ⟨_, none_there⟩
    rw [none_there] at stays
    cases stays
  · rintro ⟨h'', run', frees⟩
    cases run.symm.trans run'
    exact absurd ((frees.freed 3).mp deleted) (by decide)

end UC.BPlusTree
