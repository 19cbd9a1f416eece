import Mathlib.Data.List.Basic

/- The binary search tree of example_binary_tree_adt.cpp. A tree is what a pointer to it leads
   to: NULL, a node, or a cell given back by free, through which nothing may be read. -/
namespace UC.SearchTree

inductive PSearchTree where
  | null
  | node (value : Int) (left right : PSearchTree)
  | freed
  deriving DecidableEq

open PSearchTree

def value : PSearchTree → Option Int
  | node value _ _ => some value
  | _ => none

def left : PSearchTree → Option PSearchTree
  | node _ left _ => some left
  | _ => none

def findMin : PSearchTree → Option PSearchTree
  | null => some null
  | freed => none
  | node value left right =>
    if left = null then some (node value left right) else findMin left

def delNode (v : Int) : PSearchTree → Option PSearchTree
  | null => some null
  | freed => none
  | node value left right =>
    if v > value then delNode v right
    else if v < value then delNode v left
    else if right ≠ null ∧ left ≠ null then do
      let min ← findMin right
      let least ← SearchTree.value min
      let right ← delNode least right
      some (node least left right)
    else if right ≠ null then do
      -- tree is the right child when its left pointer is tested.
      let below ← SearchTree.left right
      some (if below ≠ null then below else right)
    else if left ≠ null then some left
    else
      -- tree is still tmpCell, which has been freed.
      some freed

def values : PSearchTree → List Int
  | node value left right => values left ++ value :: values right
  | _ => []

/-- The four rules of the comment at the head of the file. -/
def IsSearchTree : PSearchTree → Prop
  | null => True
  | freed => False
  | node value left right => (∀ x ∈ values left, x < value) ∧ (∀ x ∈ values right, value < x) ∧
      IsSearchTree left ∧ IsSearchTree right

instance : (tree : PSearchTree) → Decidable (IsSearchTree tree)
  | null => inferInstanceAs (Decidable True)
  | freed => inferInstanceAs (Decidable False)
  | node _ left right =>
    have := instDecidableIsSearchTree left
    have := instDecidableIsSearchTree right
    inferInstanceAs (Decidable (_ ∧ _ ∧ _ ∧ _))

theorem mem_values {x v : Int} {left right : PSearchTree} :
    x ∈ values (node v left right) ↔ x ∈ values left ∨ x = v ∨ x ∈ values right := by
  simp [values]

end UC.SearchTree
