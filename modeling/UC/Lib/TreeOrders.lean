import Mathlib.Data.List.Nodup
import Mathlib.Data.Tree.Basic

/- The three orders in which the values of a binary tree can be listed. -/
namespace UC.TreeOrders
open BinaryTree

variable {α : Type*}

def preorder : BinaryTree α → List α
  | nil => []
  | node value left right => value :: (preorder left ++ preorder right)

def inorder : BinaryTree α → List α
  | nil => []
  | node value left right => inorder left ++ value :: inorder right

def postorder : BinaryTree α → List α
  | nil => []
  | node value left right => postorder left ++ postorder right ++ [value]

theorem inorder_perm (tree : BinaryTree α) : (inorder tree).Perm (preorder tree) := by
  induction tree with
  | nil => exact List.Perm.refl []
  | node value left right leftIh rightIh =>
    exact List.perm_middle.trans ((leftIh.append rightIh).cons value)

theorem postorder_perm (tree : BinaryTree α) : (postorder tree).Perm (preorder tree) := by
  induction tree with
  | nil => exact List.Perm.refl []
  | node value left right leftIh rightIh =>
    exact (List.perm_append_singleton value _).trans ((leftIh.append rightIh).cons value)

def SameOrders (tree : BinaryTree α) : Prop :=
  inorder tree = preorder tree ∧ postorder tree = preorder tree

def AtMostOne (tree : BinaryTree α) : Prop := tree = nil ∨ ∃ value, tree = node value nil nil

theorem preorder_nil {tree : BinaryTree α} (empty : preorder tree = []) : tree = nil := by
  cases tree with
  | nil => rfl
  | node value left right => simp [preorder] at empty

/-- Without repeated values a tree of two nodes or more reads differently: its root is first in
    the one order and last in another. -/
theorem same_orders_iff {tree : BinaryTree α} (distinct : (preorder tree).Nodup) :
    SameOrders tree ↔ AtMostOne tree := by
  constructor
  · intro same
    cases tree with
    | nil => exact .inl rfl
    | node value left right =>
      right
      have post := same.2
      rw [preorder, postorder] at post
      have fresh := (List.nodup_cons.mp distinct).1
      have below : postorder left ++ postorder right = [] := by
        cases list : postorder left ++ postorder right with
        | nil => rfl
        | cons first rest =>
          rw [list, List.cons_append, List.cons.injEq] at post
          have mem : value ∈ preorder left ++ preorder right := by
            rw [← post.2]
            simp
          exact absurd mem fresh
      have none : preorder left ++ preorder right = [] := by
        have perm := (postorder_perm left).append (postorder_perm right)
        rw [below] at perm
        exact perm.nil_eq.symm
      obtain ⟨none_left, none_right⟩ := List.append_eq_nil_iff.mp none
      exact ⟨value, by rw [preorder_nil none_left, preorder_nil none_right]⟩
  · intro few
    rcases few with rfl | ⟨value, rfl⟩
    · exact ⟨rfl, rfl⟩
    · exact ⟨rfl, rfl⟩

end UC.TreeOrders
