import UC.Lib.TreeOrders

/- The traversals of example_binary_tree.cpp and those of example_binary_tree2.cpp, as the
   values they print. The fields value, left, right of the one are data, lChild, rChlid of the
   other; NULL is nil. -/
namespace UC.BinaryTrees
open BinaryTree UC.TreeOrders

abbrev BinaryTreeNode := BinaryTree Int

def preTravelTree : BinaryTreeNode → List Int
  | nil => []
  | node value left right => [value] ++ preTravelTree left ++ preTravelTree right

def inTravelTree : BinaryTreeNode → List Int
  | nil => []
  | node value left right => preTravelTree left ++ [value] ++ preTravelTree right

def postTravelTree : BinaryTreeNode → List Int
  | nil => []
  | node value left right => preTravelTree left ++ preTravelTree right ++ [value]

def traverseBiTree : BinaryTreeNode → List Int
  | nil => []
  | node data lChild rChlid => [data] ++ traverseBiTree lChild ++ traverseBiTree rChlid

def inOrderBiTree : BinaryTreeNode → List Int
  | nil => []
  | node data lChild rChlid => inOrderBiTree lChild ++ [data] ++ inOrderBiTree rChlid

def postOrderBiTree : BinaryTreeNode → List Int
  | nil => []
  | node data lChild rChlid => postOrderBiTree lChild ++ postOrderBiTree rChlid ++ [data]

theorem pre_travel_preorder (tree : BinaryTreeNode) : preTravelTree tree = preorder tree := by
  induction tree with
  | nil => rfl
  | node value left right leftIh rightIh =>
    rw [preTravelTree, preorder, leftIh, rightIh]
    simp

theorem traverse_preorder (tree : BinaryTreeNode) : traverseBiTree tree = preorder tree := by
  induction tree with
  | nil => rfl
  | node data lChild rChlid leftIh rightIh =>
    rw [traverseBiTree, preorder, leftIh, rightIh]
    simp

theorem in_order_inorder (tree : BinaryTreeNode) : inOrderBiTree tree = inorder tree := by
  induction tree with
  | nil => rfl
  | node data lChild rChlid leftIh rightIh =>
    rw [inOrderBiTree, inorder, leftIh, rightIh]
    simp

theorem post_order_postorder (tree : BinaryTreeNode) :
    postOrderBiTree tree = postorder tree := by
  induction tree with
  | nil => rfl
  | node data lChild rChlid leftIh rightIh =>
    rw [postOrderBiTree, postorder, leftIh, rightIh]

/-- The traversals of the two programs print the same. -/
def Agree (tree : BinaryTreeNode) : Prop :=
  preTravelTree tree = traverseBiTree tree ∧ inTravelTree tree = inOrderBiTree tree ∧
    postTravelTree tree = postOrderBiTree tree

/-- A condition on the children of the root, if there is one. -/
def Children (P : BinaryTreeNode → Prop) : BinaryTreeNode → Prop
  | nil => True
  | node _ left right => P left ∧ P right

theorem in_travel_iff (value : Int) (left right : BinaryTreeNode) :
    inTravelTree (node value left right) = inOrderBiTree (node value left right) ↔
      inorder left = preorder left ∧ inorder right = preorder right := by
  have length := (inorder_perm left).length_eq
  rw [inTravelTree, in_order_inorder, inorder, pre_travel_preorder, pre_travel_preorder]
  constructor
  · intro same
    rw [List.append_assoc, List.singleton_append] at same
    obtain ⟨front, back⟩ := List.append_inj same length.symm
    exact ⟨front.symm, (List.cons.inj back).2.symm⟩
  · intro both
    rw [both.1, both.2, List.append_assoc, List.singleton_append]

theorem post_travel_iff (value : Int) (left right : BinaryTreeNode) :
    postTravelTree (node value left right) = postOrderBiTree (node value left right) ↔
      postorder left = preorder left ∧ postorder right = preorder right := by
  have length := (postorder_perm left).length_eq
  rw [postTravelTree, post_order_postorder, postorder, pre_travel_preorder, pre_travel_preorder]
  constructor
  · intro same
    obtain ⟨front, back⟩ := List.append_inj (List.append_cancel_right same) length.symm
    exact ⟨front.symm, back.symm⟩
  · intro both
    rw [both.1, both.2]

theorem agree_iff_children (tree : BinaryTreeNode) :
    Agree tree ↔ Children SameOrders tree := by
  cases tree with
  | nil => exact iff_of_true ⟨rfl, rfl, rfl⟩ trivial
  | node value left right =>
    have pre : preTravelTree (node value left right) = traverseBiTree (node value left right) :=
      (pre_travel_preorder _).trans (traverse_preorder _).symm
    rw [Agree, and_iff_right pre, in_travel_iff, post_travel_iff, Children, SameOrders, SameOrders]
    exact and_and_and_comm

/-- The programs agree exactly on the trees in which both children of the root read the same in
    all orders; without repeated values these are the trees with no grandchildren. -/
theorem travels_agree_iff (tree : BinaryTreeNode) :
    (Agree tree ↔ Children SameOrders tree) ∧
      ((preorder tree).Nodup → (Agree tree ↔ Children AtMostOne tree)) := by
  constructor
  · exact agree_iff_children tree
  · intro distinct
    rw [agree_iff_children]
    cases tree with
    | nil => exact Iff.rfl
    | node value left right =>
      have below := List.nodup_append'.mp (List.nodup_cons.mp distinct).2
      exact and_congr (same_orders_iff below.1) (same_orders_iff below.2.1)

def cherry : BinaryTreeNode := node 1 (node 2 nil nil) (node 3 nil nil)

theorem cherry_agrees_iff : (Agree cherry ↔ Children SameOrders cherry) ∧
    (Agree cherry ↔ Children AtMostOne cherry) :=
  ⟨(travels_agree_iff cherry).1, (travels_agree_iff cherry).2 (by decide)⟩

example : inTravelTree cherry = [2, 1, 3] := by decide

/-- A left child with a left child: 3 is printed behind 2. -/
theorem grandchild_disagrees : ¬ Agree (node 1 (node 2 (node 3 nil nil) nil) nil) := by
  intro agree
  exact absurd agree.2.1 (by decide)

end UC.BinaryTrees
