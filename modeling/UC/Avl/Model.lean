import UC.Lib.Histories

/- The AVL tree of example_binary_tree_avl.cpp. none is a NULL pointer that is dereferenced;
   malloc succeeds. The right branch of insNode calls the two rotations of the left branch. -/
namespace UC.Avl

/-- A pointer to struct AvlNode and what hangs below it. -/
inductive AvlTree where
  | NULL
  | node (value : Int) (left right : AvlTree) (height : Int)
  deriving DecidableEq

open AvlTree

def treeDeep : AvlTree → Int
  | NULL => -1
  | node _ _ _ height => height

/-- tree->height = max(treeDeep(tree->left), treeDeep(tree->right)) + 1. -/
def setHeight : AvlTree → Option AvlTree
  | NULL => none
  | node value left right _ =>
    some (node value left right (max (treeDeep left) (treeDeep right) + 1))

/-- The height given to tmp is that of its new child: position is what both lines read. -/
def singleRotateWithLeft : AvlTree → Option AvlTree
  | node value (node tmpValue tmpLeft tmpRight _) right _ =>
    let height := max (treeDeep tmpRight) (treeDeep right) + 1
    some (node tmpValue tmpLeft (node value tmpRight right height) height)
  | _ => none

def singleRotateWithRight : AvlTree → Option AvlTree
  | node value left (node tmpValue tmpLeft tmpRight _) _ =>
    let height := max (treeDeep left) (treeDeep tmpLeft) + 1
    some (node tmpValue (node value left tmpLeft height) tmpRight height)
  | _ => none

def doubleRotateWithLeft : AvlTree → Option AvlTree
  | NULL => none
  | node value left right height =>
    (singleRotateWithRight left).bind fun left =>
      singleRotateWithLeft (node value left right height)

def insNode (value : Int) : AvlTree → Option AvlTree
  | NULL => setHeight (node value NULL NULL 0)
  | node v left right height =>
    if value < v then
      (insNode value left).bind fun left =>
        let tree := node v left right height
        if treeDeep left - treeDeep right = 2 then
          match left with
          | NULL => none
          | node leftValue _ _ _ =>
            (if value < leftValue then singleRotateWithLeft tree
              else doubleRotateWithLeft tree).bind setHeight
        else setHeight tree
    else if value > v then
      (insNode value right).bind fun right =>
        let tree := node v left right height
        if treeDeep right - treeDeep left = 2 then
          match right with
          | NULL => none
          | node rightValue _ _ _ =>
            (if value > rightValue then singleRotateWithLeft tree
              else doubleRotateWithLeft tree).bind setHeight
        else setHeight tree
    else setHeight (node v left right height)

def inorder : AvlTree → List Int
  | NULL => []
  | node value left right _ => inorder left ++ value :: inorder right

def trueHeight : AvlTree → Int
  | NULL => -1
  | node _ left right _ => max (trueHeight left) (trueHeight right) + 1

/-- P of every node: its left and right subtrees and its stored height. -/
def EveryNode (P : AvlTree → AvlTree → Int → Prop) : AvlTree → Prop
  | NULL => True
  | node _ left right height => P left right height ∧ EveryNode P left ∧ EveryNode P right

def HeightsStored : AvlTree → Prop :=
  EveryNode fun left right height => height = max (trueHeight left) (trueHeight right) + 1

def Balanced : AvlTree → Prop :=
  EveryNode fun left right _ =>
    trueHeight left - trueHeight right ≤ 1 ∧ trueHeight right - trueHeight left ≤ 1

/-- What insNode has made of NULL, none once NULL was dereferenced, and the values given to
    it. -/
structure Run where
  tree : Option AvlTree
  inserted : List Int

def start : Run := ⟨some NULL, []⟩

def insert (run : Run) (value : Int) : Option Run :=
  some ⟨run.tree.bind (insNode value), run.inserted ++ [value]⟩

/-- The search tree that the insertions should leave. -/
structure SearchTree (tree : AvlTree) (inserted : List Int) : Prop where
  sorted : (inorder tree).Pairwise (· < ·)
  values : ∀ v, v ∈ inorder tree ↔ v ∈ inserted
  heights : HeightsStored tree
  balanced : Balanced tree

def Correct (run : Run) : Prop := ∃ tree, run.tree = some tree ∧ SearchTree tree run.inserted

/-- An insertion of value makes the tree higher: it falls off the tree, and every node on its
    way has subtrees of one height. -/
def Grows (value : Int) : AvlTree → Prop
  | NULL => True
  | node v left right _ =>
    if value < v then trueHeight left = trueHeight right ∧ Grows value left
    else if value > v then trueHeight left = trueHeight right ∧ Grows value right
    else False

/-- Somewhere on its way the value goes into a right subtree that is the higher one and
    grows. -/
def RightHeavy (value : Int) : AvlTree → Prop
  | NULL => False
  | node v left right _ =>
    if value < v then RightHeavy value left
    else if value > v then
      RightHeavy value right ∨ (trueHeight right = trueHeight left + 1 ∧ Grows value right)
    else False

/-- The branch with the wrong rotations is not taken. -/
def Avoids (run : Run) (value : Int) : Prop :=
  ∀ tree, run.tree = some tree → ¬ RightHeavy value tree

end UC.Avl
