import UC.BPlusTree.Rebalance

/- The way of remove through a tree, read off the tree as it is before the call: which nodes
   borrow and merge, what they then are, and which datum stands at its end. -/
namespace UC.BPlusTree
open UC.Memory UC.Loops UC.Slots

variable {K : Type} [LinearOrder K]

namespace CNode

/-- The node behind borrowFrom. An inner node does not get away with borrowing from the
    right: the sibling then loses a child. -/
def borrowed (n s : CNode K) (key : K) : Direction → Option (CNode K)
  | .LEFT =>
    match n.m_Type with
    | .LEAF => n.insertLeaf (s.m_KeyValues (s.m_KeyNum - 1)) (s.m_Datas (s.m_KeyNum - 1))
    | .INTERNAL => n.insertChild 0 0 key (s.m_Childs s.m_KeyNum)
  | .RIGHT =>
    match n.m_Type with
    | .LEAF => n.insertLeaf (s.m_KeyValues 0) (s.m_Datas 0)
    | .INTERNAL => none

/-- The node behind mergeChild with the right node c; key is the parent's between them. -/
def merged (n c : CNode K) (key : K) : Option (CNode K) :=
  match n.m_Type with
  | .LEAF =>
    (forLoop (fun i n => n.insertLeaf (c.m_KeyValues i) (c.m_Datas i)) c.m_KeyNum n).map fun n =>
      { n with m_RightSibling := c.m_RightSibling }
  | .INTERNAL =>
    (n.insertChild MINNUM_KEY (MINNUM_KEY + 1) key (c.m_Childs 0)).bind
      (forLoop (fun i n => n.insertChild (MINNUM_KEY + (i + 1)) (MINNUM_KEY + (i + 1) + 1)
        (c.m_KeyValues i) (c.m_Childs (i + 1))) c.m_KeyNum)

/-- A node that can give a key away. -/
def lends (s : Option (CNode K)) : Option (CNode K) := s.filter (MINNUM_KEY < ·.m_KeyNum)

end CNode

namespace Heap

/-- The node below m that recursive_remove goes on with. Inner nodes only get away with being
    merged when m has no child behind the two: else that child is deleted. -/
def nextNode (h : Heap K) (m : CNode K) (childIndex : Nat) : Option (CNode K) := do
  let child ← m.m_Childs childIndex
  let c ← h.cells child
  if c.m_KeyNum = MINNUM_KEY then
    let left := (if childIndex > 0 then m.m_Childs (childIndex - 1) else none).bind h.cells
    let right := (if childIndex < m.m_KeyNum then m.m_Childs (childIndex + 1) else none).bind
      h.cells
    match CNode.lends left, CNode.lends right, left, right with
    | some l, _, _, _ => c.borrowed l (m.m_KeyValues (childIndex - 1)) .LEFT
    | none, some r, _, _ => c.borrowed r (m.m_KeyValues childIndex) .RIGHT
    | none, none, some l, _ =>
      if c.m_Type = .LEAF ∨ childIndex = m.m_KeyNum then
        l.merged c (m.m_KeyValues (childIndex - 1))
      else none
    | none, none, none, some r =>
      if c.m_Type = .LEAF ∨ childIndex + 1 = m.m_KeyNum then
        c.merged r (m.m_KeyValues childIndex)
      else none
    | none, none, none, none => some c
  else some c

/-- The datum at the end of the way of the key below node n. -/
def dataOnWay (h : Heap K) (key : K) : Nat → CNode K → Option Int
  | 0, _ => none
  | fuel + 1, n => do
    let keyIndex ← n.getKeyIndex key
    match n.m_Type with
    | .LEAF => some (n.m_Datas keyIndex)
    | .INTERNAL =>
      let next ← h.nextNode n (n.getChildIndex key keyIndex)
      h.dataOnWay key fuel next

end Heap

/-- The root behind shrinkRoot. -/
def Heap.nextRoot (h : Heap K) (r : CNode K) : Option (CNode K) := do
  let c1 ← (r.m_Childs 0).bind h.cells
  let c2 ← (r.m_Childs 1).bind h.cells
  if c1.m_KeyNum = MINNUM_KEY ∧ c2.m_KeyNum = MINNUM_KEY then c1.merged c2 (r.m_KeyValues 0)
  else some r

/-- The datum of the pair that remove takes for the key. None when the way comes by an inner
    node that borrows from the right or is merged with a child of its parent behind it. -/
def CBPlusTree.dataOnWay (t : CBPlusTree K) (key : K) : Option Int := do
  let root ← t.m_Root
  let r ← t.heap.cells root
  let r ← if r.m_KeyNum = 1 ∧ r.m_Type = .INTERNAL then t.heap.nextRoot r else some r
  t.heap.dataOnWay key t.heap.depthBound r

section Cells

variable {h h' : Heap K} {this sibling parent : Ptr} {n s m v : CNode K} {keyIndex : Nat}

omit [LinearOrder K] in
theorem modify_cells {p : Ptr} {f : CNode K → Option (CNode K)} (run : h.modify p f = some h') :
    ∃ n n', h.cells p = some n ∧ f n = some n' ∧ h' = h.write p n' := by
  unfold Heap.modify at run
  obtain ⟨n, cell, run⟩ := Option.bind_eq_some_iff.mp run
  obtain ⟨n', made, run⟩ := Option.bind_eq_some_iff.mp run
  cases run
  exact ⟨n, n', cell, made, rfl⟩

omit [LinearOrder K] in
theorem modify_keeps {p x : Ptr} {f : CNode K → Option (CNode K)} (run : h.modify p f = some h')
    (ne : x ≠ p) : h'.cells x = h.cells x := by
  obtain ⟨n, n', _, _, rfl⟩ := modify_cells run
  exact Heap.write_elsewhere _ _ ne

omit [LinearOrder K] in
theorem modify_here {p : Ptr} {f : CNode K → Option (CNode K)} (run : h.modify p f = some h')
    (cell : h.cells p = some n) : h'.cells p = f n := by
  obtain ⟨n', n'', cell', made, rfl⟩ := modify_cells run
  cases Option.some.inj (cell.symm.trans cell')
  rw [Heap.write_here, made]

theorem borrow_left_cell (run : h.borrowFrom this sibling parent keyIndex .LEFT = some h')
    (cell_n : h.cells this = some n) (cell_s : h.cells sibling = some s)
    (cell_m : h.cells parent = some m) (ne : this ≠ sibling) (ne_n : parent ≠ this) :
    h'.cells this = n.borrowed s (m.m_KeyValues keyIndex) .LEFT := by
  unfold Heap.borrowFrom at run
  unfold CNode.borrowed
  cases type : n.m_Type with
  | LEAF =>
    simp only [cell_n, type, Option.bind_eq_bind, Option.bind_some] at run
    unfold Heap.borrowLeaf at run
    simp only [cell_s, Option.bind_eq_bind, Option.bind_some] at run
    obtain ⟨h₁, step₁, run⟩ := Option.bind_eq_some_iff.mp run
    obtain ⟨h₂, step₂, run⟩ := Option.bind_eq_some_iff.mp run
    obtain ⟨n', _, step₃⟩ := Option.bind_eq_some_iff.mp run
    rw [modify_keeps step₃ ne_n.symm, modify_keeps step₂ ne, modify_here step₁ cell_n]
  | INTERNAL =>
    simp only [cell_n, type, Option.bind_eq_bind, Option.bind_some] at run
    unfold Heap.borrowInternal at run
    simp only [cell_m, cell_s, Option.bind_eq_bind, Option.bind_some] at run
    obtain ⟨h₁, step₁, run⟩ := Option.bind_eq_some_iff.mp run
    obtain ⟨s', _, run⟩ := Option.bind_eq_some_iff.mp run
    obtain ⟨h₂, step₂, step₃⟩ := Option.bind_eq_some_iff.mp run
    rw [modify_keeps step₃ ne, modify_keeps step₂ ne_n.symm, modify_here step₁ cell_n]

variable {child : Ptr} {c : CNode K}

end Cells

end UC.BPlusTree
