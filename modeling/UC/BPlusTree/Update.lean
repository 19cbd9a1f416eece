import UC.BPlusTree.Descent
import UC.BPlusTree.Removal

/- A key changed by update: a remove, and an insert with the data the remove passed out. -/
namespace UC.BPlusTree
open UC.Memory UC.Slots UC.Chains UC.BPlusTree.Tree

variable {K : Type}

/-- The pairs of the leaves from itr on along the right siblings. -/
def Heap.readLeaves (h : Heap K) : Nat → Option Ptr → Option (List (K × Int))
  | 0, _ => none
  | _ + 1, none => some []
  | fuel + 1, some itr => do
    let n ← h.cells itr
    let rest ← h.readLeaves fuel n.m_RightSibling
    some ((slice n.m_KeyValues 0 n.m_KeyNum).zip (slice n.m_Datas 0 n.m_KeyNum) ++ rest)

def CBPlusTree.stored (t : CBPlusTree K) : Option (List (K × Int)) :=
  t.heap.readLeaves t.heap.depthBound t.m_DataHead

theorem read_leaves_chained {h : Heap K} {ls : List (Leaf K)} {fuel : Nat}
    (chained : Chained h ls none) (fits : ls.length < fuel) :
    h.readLeaves fuel (begins ls none) = some (ls.flatMap Leaf.entries) := by
  induction ls generalizing fuel with
  | nil =>
    obtain ⟨fuel, rfl⟩ := Nat.exists_eq_succ_of_ne_zero (Nat.ne_of_gt fits)
    rfl
  | cons leaf rest ih =>
    obtain ⟨fuel, rfl⟩ := Nat.exists_eq_succ_of_ne_zero (Nat.ne_zero_of_lt fits)
    obtain ⟨⟨n, cell, _, keys, datas, sibling⟩, later⟩ := chained
    have read := ih later (Nat.lt_of_succ_lt_succ fits)
    have cell : h.cells leaf.ptr = some n := cell
    have sibling : n.m_RightSibling = begins rest none := sibling
    have here : (slice n.m_KeyValues 0 n.m_KeyNum).zip (slice n.m_Datas 0 n.m_KeyNum) =
        leaf.entries := by
      rw [keys, datas, List.zip_map']
      exact List.map_id _
    rw [begins_cons, Heap.readLeaves]
    simp only [cell, sibling, read, here, Option.bind_eq_bind, Option.bind_some,
      List.flatMap_cons]

theorem Along.stored {t : CBPlusTree K} {ls : List (Leaf K)} (along : Along t ls) :
    t.stored = some (ls.flatMap Leaf.entries) := by
  unfold CBPlusTree.stored
  rw [along.head]
  exact read_leaves_chained along.chained (Nat.lt_succ_of_le along.few)

variable [LinearOrder K]

section Step

variable {t t' : CBPlusTree K} {oldKey newKey : K} {S : Set K}

end Step

/-- Of fourteen keys 3 goes behind an entry that its leaf borrows, and 7 is hidden. -/
example : ((insertAll (CBPlusTree.empty (fun _ => zeroed) 0)
    ((List.range 14).map fun key => (Int.ofNat key, Int.ofNat key))).map fun last =>
      (last.1.dataOnWay 3, last.1.search 7)) = some (some 3, some false) := by
  decide +kernel

end UC.BPlusTree
