import Mathlib.Order.Lattice
import UC.Lib.TreeOrders

/- Binary search trees of elements with keys. An element whose key is there already is not
   inserted; no node is moved. -/
namespace UC.SearchTrees
open BinaryTree UC.TreeOrders

variable {α K : Type*} [LinearOrder K] (key : α → K)

def Ordered (tree : BinaryTree α) : Prop := (inorder tree).Pairwise fun x y => key x < key y

def insert (x : α) : BinaryTree α → BinaryTree α
  | nil => node x nil nil
  | node y left right =>
    if key y < key x then node y left (insert x right)
    else if key x < key y then node y (insert x left) right
    else node y left right

def find (k : K) : BinaryTree α → Option α
  | nil => none
  | node y left right =>
    if key y < k then find k right else if k < key y then find k left else some y

variable {key} {x y z : α} {k : K} {tree left right : BinaryTree α}

theorem mem_node : x ∈ inorder (node y left right) ↔
    x ∈ inorder left ∨ x = y ∨ x ∈ inorder right := by
  rw [inorder, List.mem_append, List.mem_cons]

theorem ordered_node : Ordered key (node y left right) ↔ Ordered key left ∧ Ordered key right ∧
    (∀ x ∈ inorder left, key x < key y) ∧ ∀ x ∈ inorder right, key y < key x := by
  rw [Ordered, inorder, List.pairwise_append, List.pairwise_cons]
  constructor
  · rintro ⟨below, ⟨behind, above⟩, across⟩
    exact ⟨below, above, fun x member => across x member y List.mem_cons_self, behind⟩
  · rintro ⟨below, above, less, more⟩
    refine ⟨below, ⟨more, above⟩, fun x member z behind => ?_⟩
    rcases List.mem_cons.mp behind with same | later
    · exact same ▸ less x member
    · exact lt_trans (less x member) (more z later)

theorem insert_new (new : ∀ y ∈ inorder tree, key y ≠ key x) :
    (inorder (insert key x tree)).Perm (x :: inorder tree) := by
  induction tree with
  | nil => exact List.Perm.refl _
  | node y left right leftIh rightIh =>
    simp only [mem_node] at new
    rw [insert]
    split
    · have grown := rightIh fun z member => new z (.inr (.inr member))
      rw [inorder, inorder]
      exact ((grown.cons y).trans (List.Perm.swap x y _)).append_left _ |>.trans List.perm_middle
    split
    · have grown := leftIh fun z member => new z (.inl member)
      rw [inorder, inorder]
      exact grown.append_right _
    · rename_i not_less not_more
      exact absurd (le_antisymm (not_lt.mp not_more) (not_lt.mp not_less))
        (new y (.inr (.inl rfl)))

theorem insert_known (ordered : Ordered key tree) (member : y ∈ inorder tree)
    (same : key y = key x) : insert key x tree = tree := by
  induction tree with
  | nil => cases member
  | node z left right leftIh rightIh =>
    obtain ⟨below, above, less, more⟩ := ordered_node.mp ordered
    rw [insert]
    rcases mem_node.mp member with here | rfl | there
    · have lower := same ▸ less y here
      rw [if_neg (not_lt_of_gt lower), if_pos lower, leftIh below here]
    · rw [if_neg (not_lt_of_ge same.ge), if_neg (not_lt_of_ge same.le)]
    · have higher := same ▸ more y there
      rw [if_pos higher, rightIh above there]

theorem mem_insert (member : z ∈ inorder (insert key x tree)) : z = x ∨ z ∈ inorder tree := by
  induction tree with
  | nil =>
    rcases mem_node.mp member with none_there | same | none_there
    · cases none_there
    · exact .inl same
    · cases none_there
  | node y left right leftIh rightIh =>
    rw [insert] at member
    split at member
    · rcases mem_node.mp member with here | same | there
      · exact .inr (mem_node.mpr (.inl here))
      · exact .inr (mem_node.mpr (.inr (.inl same)))
      · exact (rightIh there).imp_right fun old => mem_node.mpr (.inr (.inr old))
    split at member
    · rcases mem_node.mp member with here | same | there
      · exact (leftIh here).imp_right fun old => mem_node.mpr (.inl old)
      · exact .inr (mem_node.mpr (.inr (.inl same)))
      · exact .inr (mem_node.mpr (.inr (.inr there)))
    · exact .inr member

theorem mem_insert_old (member : z ∈ inorder tree) : z ∈ inorder (insert key x tree) := by
  induction tree with
  | nil => cases member
  | node y left right leftIh rightIh =>
    rw [insert]
    split
    · exact mem_node.mpr ((mem_node.mp member).imp_right (Or.imp_right rightIh))
    split
    · exact mem_node.mpr ((mem_node.mp member).imp_left leftIh)
    · exact member

theorem insert_key (x : α) (tree : BinaryTree α) :
    ∃ y ∈ inorder (insert key x tree), key y = key x := by
  by_cases known : ∃ y ∈ inorder tree, key y = key x
  · obtain ⟨y, member, same⟩ := known
    exact ⟨y, mem_insert_old member, same⟩
  · have new : ∀ y ∈ inorder tree, key y ≠ key x := fun y member same => known ⟨y, member, same⟩
    exact ⟨x, (insert_new new).mem_iff.mpr List.mem_cons_self, rfl⟩

theorem insert_ordered (ordered : Ordered key tree) : Ordered key (insert key x tree) := by
  induction tree with
  | nil => exact List.pairwise_singleton _ _
  | node y left right leftIh rightIh =>
    obtain ⟨below, above, less, more⟩ := ordered_node.mp ordered
    rw [insert]
    split
    · rename_i higher
      refine ordered_node.mpr ⟨below, rightIh above, less, fun z member => ?_⟩
      rcases mem_insert member with rfl | old
      · exact higher
      · exact more z old
    split
    · rename_i lower
      refine ordered_node.mpr ⟨leftIh below, above, fun z member => ?_, more⟩
      rcases mem_insert member with rfl | old
      · exact lower
      · exact less z old
    · exact ordered

theorem find_mem (ordered : Ordered key tree) (member : y ∈ inorder tree) :
    find key (key y) tree = some y := by
  induction tree with
  | nil => cases member
  | node z left right leftIh rightIh =>
    obtain ⟨below, above, less, more⟩ := ordered_node.mp ordered
    rw [find]
    rcases mem_node.mp member with here | rfl | there
    · rw [if_neg (not_lt_of_gt (less y here)), if_pos (less y here), leftIh below here]
    · rw [if_neg (lt_irrefl _), if_neg (lt_irrefl _)]
    · rw [if_pos (more y there), rightIh above there]

theorem find_absent (absent : ∀ y ∈ inorder tree, key y ≠ k) : find key k tree = none := by
  induction tree with
  | nil => rfl
  | node y left right leftIh rightIh =>
    simp only [mem_node] at absent
    rw [find]
    split
    · exact rightIh fun z member => absent z (.inr (.inr member))
    split
    · exact leftIh fun z member => absent z (.inl member)
    · rename_i not_less not_more
      exact absurd (le_antisymm (not_lt.mp not_more) (not_lt.mp not_less))
        (absent y (.inr (.inl rfl)))

theorem head_least (ordered : Ordered key tree) (first : (inorder tree).head? = some x)
    (member : y ∈ inorder tree) : key x ≤ key y := by
  obtain ⟨rest, split⟩ := List.head?_eq_some_iff.mp first
  rw [Ordered, split, List.pairwise_cons] at ordered
  rw [split] at member
  rcases List.mem_cons.mp member with rfl | later
  · exact le_rfl
  · exact (ordered.1 y later).le

theorem last_greatest (ordered : Ordered key tree) (last : (inorder tree).getLast? = some x)
    (member : y ∈ inorder tree) : key y ≤ key x := by
  obtain ⟨front, split⟩ := List.getLast?_eq_some_iff.mp last
  rw [Ordered, split, List.pairwise_append] at ordered
  rw [split] at member
  rcases List.mem_append.mp member with before | same
  · exact (ordered.2.2 y before x (List.mem_singleton_self x)).le
  · exact (List.mem_singleton.mp same).symm ▸ le_rfl

end UC.SearchTrees
