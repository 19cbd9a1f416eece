import UC.BPlusTree.Tree

/- The splits of a full node: what they leave in the heap, and that the parent then stands
   for the tree with the two halves in place of the node. -/
namespace UC.BPlusTree
open UC.Memory UC.Slots UC.Chains

variable {K : Type}

namespace Heap

theorem write_here (h : Heap K) (p : Ptr) (n : CNode K) : (h.write p n).cells p = some n :=
  if_pos rfl

theorem write_elsewhere (h : Heap K) {p x : Ptr} (n : CNode K) (ne : x ≠ p) :
    (h.write p n).cells x = h.cells x := if_neg ne

theorem modify_cell {h : Heap K} {p : Ptr} {n n' : CNode K} {f : CNode K → Option (CNode K)}
    (cell : h.cells p = some n) (done : f n = some n') : h.modify p f = some (h.write p n') := by
  unfold modify
  rw [cell]
  simp only [Option.bind_eq_bind, Option.bind_some, done]

/-- The heap after node q, child c of node p, has been split: node q keeps the left part,
    the fresh node the right part, and p has got a key and a child. -/
structure Halved (h h' : Heap K) (q p : Ptr) (c : Nat) (m : CNode K) (sep : K)
    (left right : CNode K) : Prop where
  next : h'.next = h.next + 1
  left : h'.cells q = some left
  right : h'.cells h.next = some right
  parent : h'.cells p = some (m.withChild c (c + 1) sep (some h.next))
  others : ∀ x, x ≠ p → x ≠ q → x ≠ h.next → h'.cells x = h.cells x

section Run

variable {h : Heap K} {q p : Ptr} {n m : CNode K} {c : Nat}

/-- The node new hands out, before anything is written to it. -/
def blank (h : Heap K) (type : NodeType) : CNode K :=
  { h.raw h.next with
    m_Type := type, m_KeyNum := 0, m_LeftSibling := none, m_RightSibling := none }

def grown (h : Heap K) (type : NodeType) : Heap K :=
  { h.write h.next (h.blank type) with next := h.next + 1 }

theorem new_eq (h : Heap K) (type : NodeType) : h.new type = (h.grown type, h.next) := rfl

theorem grown_old (type : NodeType) {x : Ptr} (old : x ≠ h.next) :
    (h.grown type).cells x = h.cells x := write_elsewhere h _ old

theorem grown_fresh (h : Heap K) (type : NodeType) :
    (h.grown type).cells h.next = some (h.blank type) := write_here h _ _

theorem split_leaf_halves (cell : h.cells q = some n) (parent : h.cells p = some m)
    (type : n.m_Type = .LEAF) (room : m.m_KeyNum < MAXNUM_KEY) (le : c ≤ m.m_KeyNum)
    (ne : p ≠ q) (q_old : q ≠ h.next) (p_old : p ≠ h.next) :
    ∃ h', h.split q p c = some h' ∧
      Halved h h' q p c m (n.m_KeyValues MINNUM_LEAF) (n.leftLeaf h.next)
        ((h.blank .LEAF).rightLeaf n q) := by
  let h₁ := (h.grown .LEAF).write q (n.leftLeaf h.next)
  let h₂ := h₁.write h.next ((h.blank .LEAF).rightLeaf n q)
  have cell₁ : (h.grown .LEAF).cells q = some n := (grown_old _ q_old).trans cell
  have step₁ : (h.grown .LEAF).modify q (fun n => some (n.leftLeaf h.next)) = some h₁ :=
    modify_cell cell₁ rfl
  have cell₂ : h₁.cells h.next = some (h.blank .LEAF) :=
    (write_elsewhere _ _ q_old.symm).trans (grown_fresh h .LEAF)
  have step₂ : h₁.modify h.next (fun m => m.fillLeaf n q) = some h₂ :=
    modify_cell cell₂ (CNode.fill_leaf_spec _ q)
  have cell₃ : h₂.cells p = some m := by
    rw [write_elsewhere _ _ p_old, write_elsewhere _ _ ne, grown_old _ p_old, parent]
  let h₃ := h₂.write p (m.withChild c (c + 1) (n.m_KeyValues MINNUM_LEAF) (some h.next))
  have step₃ : h₂.modify p (fun m =>
      m.insertChild c (c + 1) (n.m_KeyValues MINNUM_LEAF) (some h.next)) = some h₃ :=
    modify_cell cell₃ (CNode.insert_child_spec room le (.inr rfl) _ _)
  refine ⟨h₃, ?_, rfl, ?_, ?_, write_here _ _ _, ?_⟩
  · unfold CNode.leftLeaf at step₁
    unfold split splitLeaf
    simp only [cell, type, new_eq, cell₁, step₁, step₂, Option.bind_eq_bind, Option.bind_some]
    exact step₃
  · rw [write_elsewhere _ _ ne.symm, write_elsewhere _ _ q_old, write_here]
  · rw [write_elsewhere _ _ p_old.symm, write_here]
  · intro x hp hq hn
    rw [write_elsewhere _ _ hp, write_elsewhere _ _ hn, write_elsewhere _ _ hq, grown_old _ hn]

theorem split_internal_halves (cell : h.cells q = some n) (parent : h.cells p = some m)
    (type : n.m_Type = .INTERNAL) (room : m.m_KeyNum < MAXNUM_KEY) (le : c ≤ m.m_KeyNum)
    (ne : p ≠ q) (q_old : q ≠ h.next) (p_old : p ≠ h.next) :
    ∃ h', h.split q p c = some h' ∧
      Halved h h' q p c m (n.m_KeyValues MINNUM_KEY) n.leftInternal
        ((h.blank .INTERNAL).rightInternal n) := by
  let h₁ := (h.grown .INTERNAL).write h.next ((h.blank .INTERNAL).rightInternal n)
  let h₂ := h₁.write q n.leftInternal
  have cell₀ : (h.grown .INTERNAL).cells q = some n := (grown_old _ q_old).trans cell
  have step₁ : (h.grown .INTERNAL).modify h.next (fun m => m.fillInternal n) = some h₁ :=
    modify_cell (grown_fresh h .INTERNAL) (CNode.fill_internal_spec _)
  have cell₂ : h₁.cells q = some n := (write_elsewhere _ _ q_old).trans cell₀
  have step₂ : h₁.modify q (fun n => some n.leftInternal) = some h₂ := modify_cell cell₂ rfl
  have cell₃ : h₂.cells p = some m := by
    rw [write_elsewhere _ _ ne, write_elsewhere _ _ p_old, grown_old _ p_old, parent]
  let h₃ := h₂.write p (m.withChild c (c + 1) (n.m_KeyValues MINNUM_KEY) (some h.next))
  have step₃ : h₂.modify p (fun m =>
      m.insertChild c (c + 1) (n.m_KeyValues MINNUM_KEY) (some h.next)) = some h₃ :=
    modify_cell cell₃ (CNode.insert_child_spec room le (.inr rfl) _ _)
  refine ⟨h₃, ?_, rfl, ?_, ?_, write_here _ _ _, ?_⟩
  · unfold CNode.leftInternal at step₂
    unfold split splitInternal
    simp only [cell, type, new_eq, cell₀, step₁, step₂, Option.bind_eq_bind, Option.bind_some]
    exact step₃
  · rw [write_elsewhere _ _ ne.symm, write_here]
  · rw [write_elsewhere _ _ p_old.symm, write_elsewhere _ _ q_old.symm, write_here]
  · intro x hp hq hn
    rw [write_elsewhere _ _ hp, write_elsewhere _ _ hq, write_elsewhere _ _ hn, grown_old _ hn]

end Run

end Heap

open UC.BPlusTree.Tree

/-- Split of a full node k with parent p, seen on trees. -/
structure Halves (h h' : Heap K) (p : Ptr) (c : Nat) (m : CNode K) (d : Nat)
    (k left right : Tree K d) (tail : Option Ptr) : Prop where
  reprLeft : Repr h' d left (some (first d right))
  reprRight : Repr h' d right tail
  ptrLeft : ptr d left = ptr d k
  ptrRight : ptr d right = h.next
  first : first d left = first d k
  entries : entries d left ++ entries d right = entries d k
  ptrs : (ptrs d left ++ ptrs d right).Perm (h.next :: ptrs d k)
  next : h'.next = h.next + 1
  parent : ∃ sep, h'.cells p = some (m.withChild c (c + 1) sep (some h.next))
  others : ∀ x, x ≠ p → x ≠ ptr d k → x ≠ h.next → h'.cells x = h.cells x

section Tree

variable [LinearOrder K] {h : Heap K} {p : Ptr} {m : CNode K} {c : Nat}

theorem leaf_part {q : Ptr} {part all : List (K × Int)}
    (sorted : (all.map Prod.fst).Pairwise (· ≤ ·)) (sub : part.Sublist all)
    (size : part.length = MINNUM_LEAF ∨ part.length = MINNUM_LEAF + 1) :
    Within MINNUM_KEY 0 (Leaf.mk q part) ∧ num 0 (Leaf.mk q part) < MAXNUM_KEY := by
  have bounds : MINNUM_LEAF ≤ part.length ∧ part.length < MAXNUM_LEAF := by
    rcases size with size | size
    · rw [size]
      decide
    · rw [size]
      decide
  exact ⟨⟨bounds.1, Nat.le_of_lt bounds.2, sorted.sublist (sub.map Prod.fst)⟩, bounds.2⟩

theorem inner_part {d : Nat} {q : Ptr} {part all : List (Tree K d)}
    (within : ∀ kid ∈ all, Within MINNUM_KEY d kid) (sub : part.Sublist all)
    (size : part.length = MINNUM_CHILD) :
    Within MINNUM_KEY (d + 1) (node q part) ∧ num (d + 1) (node q part) < MAXNUM_KEY := by
  have few : num (d + 1) (node q part) < MAXNUM_KEY := by
    change part.length - 1 < MAXNUM_KEY
    rw [size]
    decide
  refine ⟨⟨Nat.le_of_eq size.symm, ?_, fun kid mem => within kid (sub.subset mem)⟩, few⟩
  change part.length ≤ MAXNUM_CHILD
  rw [size]
  decide

/-- The halves of a full leaf; the right one is a new node. -/
def lowerHalf (k : Tree K 0) : Tree K 0 :=
  Leaf.mk (Leaf.ptr k) ((Leaf.entries k).take MINNUM_LEAF)

def upperHalf (h : Heap K) (k : Tree K 0) : Tree K 0 :=
  Leaf.mk h.next ((Leaf.entries k).drop MINNUM_LEAF)

theorem leaf_halves {k : Tree K 0} {tail : Option Ptr} (repr : Repr h 0 k tail)
    (within : Within MINNUM_KEY 0 k) (full : num 0 k = MAXNUM_KEY) (parent : h.cells p = some m)
    (room : m.m_KeyNum < MAXNUM_KEY) (le : c ≤ m.m_KeyNum) (outside : p ∉ ptrs 0 k)
    (old : ∀ x ∈ ptrs 0 k, x < h.next) (p_old : p < h.next) :
    ∃ h' n, h.split (ptr 0 k) p c = some h' ∧ h.cells (ptr 0 k) = some n ∧
      h.Halved h' (ptr 0 k) p c m (n.m_KeyValues MINNUM_LEAF) (n.leftLeaf h.next)
        ((h.blank .LEAF).rightLeaf n (ptr 0 k)) ∧
      Halves h h' p c m 0 k (lowerHalf k) (upperHalf h k) tail ∧
      (Within MINNUM_KEY 0 (lowerHalf k) ∧ num 0 (lowerHalf k) < MAXNUM_KEY) ∧
      Within MINNUM_KEY 0 (upperHalf h k) ∧ num 0 (upperHalf h k) < MAXNUM_KEY := by
  obtain ⟨n, cell, type, keys, datas, sibling⟩ := repr
  obtain ⟨_, _, sorted⟩ := within
  change (Leaf.entries k).length = MAXNUM_KEY at full
  have count := congrArg List.length keys
  rw [slice_length, List.length_map, full] at count
  rw [count] at keys datas
  have q_old := old _ (List.mem_singleton_self _)
  have ne : p ≠ Leaf.ptr k := fun eq => outside (List.mem_singleton.mpr eq)
  obtain ⟨h', run, halved⟩ := Heap.split_leaf_halves cell parent type room le ne
    (Nat.ne_of_lt q_old) (Nat.ne_of_lt p_old)
  refine ⟨h', n, run, cell, halved, ?_, ?_, ?_⟩
  · constructor
    · refine ⟨_, halved.left, type, ?_, ?_, rfl⟩
      · change _ = ((Leaf.entries k).take MINNUM_LEAF).map _
        rw [List.map_take, ← keys, slice_take]
        rfl
      · change _ = ((Leaf.entries k).take MINNUM_LEAF).map _
        rw [List.map_take, ← datas, slice_take]
        rfl
    · refine ⟨_, halved.right, rfl, ?_, ?_, sibling⟩
      · change _ = ((Leaf.entries k).drop MINNUM_LEAF).map _
        rw [List.map_drop, ← keys, slice_drop _ (by decide)]
        exact slice_memcpy _ _ _ _ _
      · change _ = ((Leaf.entries k).drop MINNUM_LEAF).map _
        rw [List.map_drop, ← datas, slice_drop _ (by decide)]
        exact slice_memcpy _ _ _ _ _
    · rfl
    · rfl
    · rfl
    · exact List.take_append_drop _ _
    · exact List.Perm.swap _ _ _
    · exact halved.next
    · exact ⟨_, halved.parent⟩
    · exact halved.others
  · apply leaf_part sorted (List.take_sublist _ _)
    left
    rw [List.length_take, full]
    rfl
  · apply leaf_part sorted (List.drop_sublist _ _)
    right
    rw [List.length_drop, full]
    rfl

omit [LinearOrder K] in
/-- The kids of a full node are shared out; the nodes below it are as they were. -/
theorem kids_halved {h' : Heap K} {d : Nat} {k : Tree K (d + 1)} {n : CNode K} {sep : K}
    {tail : Option Ptr} (type : n.m_Type = .INTERNAL)
    (childs : slice n.m_Childs 0 MAXNUM_CHILD =
      (Inner.kids k).map fun kid => some (ptr d kid))
    (below : Linked (Repr h' d) (first d) (Inner.kids k) tail)
    (halved : h.Halved h' (Inner.ptr k) p c m sep n.leftInternal
      ((h.blank .INTERNAL).rightInternal n)) :
    Halves h h' p c m (d + 1) k (node (Inner.ptr k) ((Inner.kids k).take MINNUM_CHILD))
      (node h.next ((Inner.kids k).drop MINNUM_CHILD)) tail := by
  have total := congrArg List.length childs
  rw [slice_length, List.length_map] at total
  have parts := List.take_append_drop MINNUM_CHILD (Inner.kids k)
  have left_size : ((Inner.kids k).take MINNUM_CHILD).length = 6 + 1 := by
    rw [List.length_take, ← total]
    rfl
  have right_size : ((Inner.kids k).drop MINNUM_CHILD).length = 6 + 1 := by
    rw [List.length_drop, ← total]
    rfl
  obtain ⟨leftmost, others, leftParts⟩ := List.exists_cons_of_length_eq_add_one left_size
  obtain ⟨rightmost, others', rightParts⟩ := List.exists_cons_of_length_eq_add_one right_size
  rw [← parts, linked_append] at below
  obtain ⟨linkedLeft, linkedRight⟩ := below
  constructor
  · refine ⟨_, halved.left, type, ?_, ?_⟩
    · change slice n.m_Childs 0 (MINNUM_KEY + 1) = ((Inner.kids k).take MINNUM_CHILD).map _
      rw [List.map_take, ← childs, slice_take]
      rfl
    · rw [rightParts] at linkedLeft ⊢
      exact linkedLeft
  · refine ⟨_, halved.right, rfl, ?_, linkedRight⟩
    change slice (memcpy _ 0 n.m_Childs MINNUM_CHILD MINNUM_CHILD) 0 MINNUM_CHILD =
      ((Inner.kids k).drop MINNUM_CHILD).map _
    rw [List.map_drop, ← childs, slice_drop _ (by decide)]
    exact slice_memcpy _ _ _ _ _
  · rfl
  · rfl
  · have all : Inner.kids k = leftmost :: (others ++ (Inner.kids k).drop MINNUM_CHILD) := by
      rw [← List.cons_append, ← leftParts, parts]
    rw [first_inner leftParts, first_inner all]
  · rw [entries_node, entries_node, ← List.flatMap_append, parts]
    rfl
  · have all : ptrs (d + 1) k = Inner.ptr k :: ((Inner.kids k).take MINNUM_CHILD ++
        (Inner.kids k).drop MINNUM_CHILD).flatMap (ptrs d) := by
      rw [parts]
      rfl
    rw [ptrs_node, ptrs_node, all, List.flatMap_append]
    exact List.perm_middle
  · exact halved.next
  · exact ⟨_, halved.parent⟩
  · exact halved.others

theorem inner_halves {d : Nat} {k : Tree K (d + 1)} {tail : Option Ptr}
    (repr : Repr h (d + 1) k tail) (within : Within MINNUM_KEY (d + 1) k)
    (full : num (d + 1) k = MAXNUM_KEY) (parent : h.cells p = some m)
    (room : m.m_KeyNum < MAXNUM_KEY) (le : c ≤ m.m_KeyNum) (outside : p ∉ ptrs (d + 1) k)
    (nodup : (ptrs (d + 1) k).Nodup) (old : ∀ x ∈ ptrs (d + 1) k, x < h.next)
    (p_old : p < h.next) :
    ∃ h' left right, h.split (ptr (d + 1) k) p c = some h' ∧
      Halves h h' p c m (d + 1) k left right tail ∧
      (Within MINNUM_KEY (d + 1) left ∧ num (d + 1) left < MAXNUM_KEY) ∧
      Within MINNUM_KEY (d + 1) right ∧ num (d + 1) right < MAXNUM_KEY := by
  obtain ⟨n, cell, type, childs, linked⟩ := repr
  obtain ⟨lower, _, kids⟩ := within
  have total : (Inner.kids k).length = MAXNUM_CHILD := by
    rw [num_inner] at full
    unfold MAXNUM_CHILD
    omega
  have count := congrArg List.length childs
  rw [slice_length, List.length_map, total] at count
  rw [count] at childs
  have q_old := old _ List.mem_cons_self
  have ne : p ≠ Inner.ptr k := fun eq => outside (eq ▸ List.mem_cons_self)
  obtain ⟨h', run, halved⟩ := Heap.split_internal_halves cell parent type room le ne
    (Nat.ne_of_lt q_old) (Nat.ne_of_lt p_old)
  have below : Linked (Repr h' d) (first d) (Inner.kids k) tail := by
    apply linked_same _ linked
    intro kid mem x hx
    have inside : x ∈ (Inner.kids k).flatMap (ptrs d) := List.mem_flatMap.mpr ⟨kid, mem, hx⟩
    have mem_k : x ∈ ptrs (d + 1) k := List.mem_cons_of_mem _ inside
    apply halved.others
    · exact fun eq => outside (eq ▸ mem_k)
    · exact fun eq => (List.nodup_cons.mp nodup).1 (eq ▸ inside)
    · exact Nat.ne_of_lt (old x mem_k)
  refine ⟨h', _, _, run, kids_halved type childs below halved, ?_, ?_⟩
  · apply inner_part kids (List.take_sublist _ _)
    rw [List.length_take, total]
    rfl
  · apply inner_part kids (List.drop_sublist _ _)
    rw [List.length_drop, total]
    rfl

theorem kid_halves {d : Nat} {k : Tree K d} {tail : Option Ptr} (repr : Repr h d k tail)
    (within : Within MINNUM_KEY d k) (full : num d k = MAXNUM_KEY) (parent : h.cells p = some m)
    (room : m.m_KeyNum < MAXNUM_KEY) (le : c ≤ m.m_KeyNum) (outside : p ∉ ptrs d k)
    (nodup : (ptrs d k).Nodup) (old : ∀ x ∈ ptrs d k, x < h.next) (p_old : p < h.next) :
    ∃ h' left right, h.split (ptr d k) p c = some h' ∧
      Halves h h' p c m d k left right tail ∧
      (Within MINNUM_KEY d left ∧ num d left < MAXNUM_KEY) ∧
      Within MINNUM_KEY d right ∧ num d right < MAXNUM_KEY := by
  cases d with
  | zero =>
    obtain ⟨h', _, run, _, _, halves⟩ :=
      leaf_halves repr within full parent room le outside old p_old
    exact ⟨h', _, _, run, halves⟩
  | succ d => exact inner_halves repr within full parent room le outside nodup old p_old

end Tree

end UC.BPlusTree
