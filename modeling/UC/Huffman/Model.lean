import Mathlib.Algebra.Order.Ring.Int
import UC.Lib.WeightedTree

/- CreateHuffman and WeightPathLength of example_huffman.cpp, with the weights and
   sums as unbounded integers; Ints has both in the int of the source. -/
namespace UC.Huffman

inductive BTreeNode where
  | null
  | node (data : Int) (left right : BTreeNode)
  deriving DecidableEq, Repr

namespace BTreeNode

def isNull : BTreeNode → Bool
  | .null => true
  | .node .. => false

/-- The field data; it is only read behind a test against NULL. -/
def data : BTreeNode → Int
  | .null => 0
  | .node d _ _ => d

end BTreeNode

open BTreeNode

def newLeaf (w : Int) : BTreeNode := .node w .null .null

/-- The array b[] of tree pointers. -/
abbrev Forest := List BTreeNode

def Forest.at (b : Forest) (j : Nat) : BTreeNode := b.getD j .null

/-- The first inner loop: k1 and k2 become the first two positions that are not NULL.
    The argument k1 is none while the variable is -1, and k2 is none while it is unset. -/
def firstTwo (b : Forest) : List Nat → Option Nat → Option Nat × Option Nat
  | [], k1 => (k1, none)
  | j :: js, k1 =>
    if !(b.at j).isNull && k1.isNone then firstTwo b js (some j)
    else if !(b.at j).isNull then (k1, some j)
    else firstTwo b js k1

/-- The second inner loop, from j = k2 on. -/
def smallestTwo (b : Forest) : List Nat → Nat → Nat → Nat × Nat
  | [], k1, k2 => (k1, k2)
  | j :: js, k1, k2 =>
    if !(b.at j).isNull then
      if (b.at j).data < (b.at k1).data then smallestTwo b js j k1
      else if (b.at j).data < (b.at k2).data then smallestTwo b js k1 j
      else smallestTwo b js k1 k2
    else smallestTwo b js k1 k2

/-- One round of the outer loop: the new array and q. -/
def joinRound (b : Forest) : Option (Forest × BTreeNode) :=
  match firstTwo b (List.range b.length) none with
  | (some k1, some k2) =>
    let (k1, k2) := smallestTwo b (List.range' k2 (b.length - k2)) k1 k2
    let q := .node ((b.at k1).data + (b.at k2).data) (b.at k1) (b.at k2)
    some ((b.set k1 q).set k2 .null, q)
  | _ => none

/-- The outer loop, for the rounds still to run; q is what the last round made. -/
def joinRounds : Nat → Forest → Option BTreeNode → Option BTreeNode
  | 0, _, q => q
  | rounds + 1, b, _ =>
    match joinRound b with
    | some (b, q) => joinRounds rounds b (some q)
    | none => none

def createHuffman (a : List Int) : Option BTreeNode :=
  joinRounds (a.length - 1) (a.map newLeaf) none

def weightPathLength : BTreeNode → Int → Int
  | .null, _ => 0
  | .node d .null .null, len => d * len
  | .node _ l r, len => weightPathLength l (len + 1) + weightPathLength r (len + 1)

def leafValues : BTreeNode → Multiset Int
  | .null => 0
  | .node d .null .null => {d}
  | .node _ l r => leafValues l + leafValues r

def Full : BTreeNode → Prop
  | .null => False
  | .node _ .null .null => True
  | .node _ l r => Full l ∧ Full r

/-- Every internal node holds the sum of its children. -/
def Sums : BTreeNode → Prop
  | .null => True
  | .node _ .null .null => True
  | .node d l r => d = l.data + r.data ∧ Sums l ∧ Sums r

end UC.Huffman
