import UC.BPlusTree.SingleLeaf
import UC.BPlusTree.Window

/- A removal seen on the chain of leaves: on its way down it borrows and merges, and at the
   end one entry is gone. -/
namespace UC.BPlusTree
open UC.Memory UC.Slots UC.Chains UC.BPlusTree.Tree

variable {K : Type} [LinearOrder K]

section Descent

variable {h h' h'' : Heap K} {d lo : Nat} {tail : Option Ptr}

/-- The chain of leaves of T with one entry less. -/
structure Thinned (h h' : Heap K) (d : Nat) (T : Tree K d) (tail : Option Ptr) (gone : K × Int)
    (after : List (Leaf K)) : Prop where
  chained : Chained h' after tail
  head : begins after tail = begins (leaves d T) tail
  fewer : (gone :: after.flatMap Leaf.entries).Perm (entries d T)
  few : after.length ≤ (leaves d T).length
  frame : LeafFrame (ptrs d T) h h'

variable {t t' : CBPlusTree K} {key : K} {data : Int}

end Descent

section Root

variable {t t' t₁ : CBPlusTree K} {d : Nat}

/-- The leaves from m_DataHead along the right siblings. -/
structure Along (t : CBPlusTree K) (ls : List (Leaf K)) : Prop where
  chained : Chained t.heap ls none
  head : t.m_DataHead = begins ls none
  few : ls.length ≤ t.heap.next

theorem Shape.along {T : Tree K d} {lo : Nat} (shape : Shape t lo d T) :
    Along t (leaves d T) := by
  obtain ⟨chained, start⟩ := leaves_chained shape.repr shape.within
  refine ⟨chained, shape.head.trans start.symm, ?_⟩
  rw [← List.length_map Leaf.ptr]
  exact Nat.le_trans (leaves_are_nodes T).length_le shape.size

theorem Thinned.along {T : Tree K d} {lo : Nat} {gone : K × Int} {after : List (Leaf K)}
    (thinned : Thinned t.heap t'.heap d T none gone after) (shape : Shape t lo d T)
    (same : t'.m_DataHead = t.m_DataHead) : Along t' after := by
  have along := shape.along
  refine ⟨thinned.chained, ?_, ?_⟩
  · rw [same, thinned.head]
    exact along.head
  · rw [thinned.frame.next]
    exact Nat.le_trans thinned.few along.few

end Root

end UC.BPlusTree
