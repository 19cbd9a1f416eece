import Mathlib.Data.Multiset.AddSub
import UC.Lib.Memory

/- The leftist heap of example_left_heap.cpp. none is a NULL pointer that is dereferenced.
   isEmpty is declared there and not defined, so it is a parameter. -/
namespace UC.LeftHeap
open UC.Memory

/-- A pointer to struct LeftHeapNode and what hangs below it. -/
inductive PriorityQueue where
  | NULL
  | node (element : Int) (left right : PriorityQueue) (npl : Int)
  deriving DecidableEq

open UC.LeftHeap.PriorityQueue

/-- queue->npl. -/
def readNpl : PriorityQueue → Option Int
  | NULL => none
  | node _ _ _ npl => some npl

def swapChild : PriorityQueue → PriorityQueue
  | NULL => NULL
  | node element left right npl => node element right left npl

/-- queue1->npl = queue1->right->npl + 1. -/
def setNpl : PriorityQueue → Option PriorityQueue
  | NULL => none
  | node element left right _ =>
    (readNpl right).map fun npl => node element left right (npl + 1)

def size : PriorityQueue → Nat
  | NULL => 0
  | node _ left right _ => size left + size right + 1

mutual

def merge : PriorityQueue → PriorityQueue → Option PriorityQueue
  | NULL, queue2 => some queue2
  | queue1, NULL => some queue1
  | node x1 l1 r1 n1, node x2 l2 r2 n2 =>
    if x1 < x2 then merge1 (node x1 l1 r1 n1) (node x2 l2 r2 n2)
    else merge1 (node x2 l2 r2 n2) (node x1 l1 r1 n1)
termination_by queue1 queue2 => (size queue1 + size queue2, 1)
decreasing_by
  · exact Prod.Lex.right _ (by omega)
  · rw [Nat.add_comm]
    exact Prod.Lex.right _ (by omega)

def merge1 : PriorityQueue → PriorityQueue → Option PriorityQueue
  | NULL, _ => none
  | node element NULL right npl, queue2 => some (node element queue2 right npl)
  | node element left right npl, queue2 =>
    (merge right queue2).bind fun right =>
      (readNpl left).bind fun leftNpl =>
        (readNpl right).bind fun rightNpl =>
          let queue1 := node element left right npl
          setNpl (if leftNpl < rightNpl then swapChild queue1 else queue1)
termination_by queue1 queue2 => (size queue1 + size queue2, 0)
decreasing_by
  apply Prod.Lex.left
  simp only [size]
  omega

end

/-- allocated tells whether malloc has succeeded. -/
def insert1 (allocated : Bool) (x : Int) (queue : PriorityQueue) : Option PriorityQueue :=
  if allocated then merge (node x NULL NULL 0) queue else some queue

def deleteMin (isEmpty : PriorityQueue → Bool) (queue : PriorityQueue) : Option PriorityQueue :=
  if isEmpty queue then some queue
  else match queue with
    | NULL => none
    | node _ leftHeap rightHeap _ => merge leftHeap rightHeap

/-- Calls on the heaps of a forest; merge leaves its result in the first variable. -/
inductive Call where
  | insert1 (allocated : Bool) (x : Int) (i : Nat)
  | merge (i j : Nat)
  | deleteMin (i : Nat)

/-- The two heaps merged are not one; merge would go round in its nodes. -/
def Call.Proper : Call → Prop
  | .merge i j => i ≠ j
  | _ => True

def call (isEmpty : PriorityQueue → Bool) (forest : Mem PriorityQueue) :
    Call → Option (Mem PriorityQueue)
  | .insert1 allocated x i =>
    (insert1 allocated x (forest i)).map fun queue => store forest i queue
  | .merge i j =>
    if i = j then none
    else (merge (forest i) (forest j)).map fun queue => store (store forest j NULL) i queue
  | .deleteMin i => (deleteMin isEmpty (forest i)).map fun queue => store forest i queue

def elements : PriorityQueue → Multiset Int
  | NULL => 0
  | node element left right _ => element ::ₘ (elements left + elements right)

/-- The npl of a heap, -1 for NULL. -/
def npl : PriorityQueue → Int
  | NULL => -1
  | node _ _ _ npl => npl

def AtLeast (x : Int) : PriorityQueue → Prop
  | NULL => True
  | node element _ _ _ => x ≤ element

def Ordered : PriorityQueue → Prop
  | NULL => True
  | node element left right _ =>
    AtLeast element left ∧ AtLeast element right ∧ Ordered left ∧ Ordered right

def Leftist : PriorityQueue → Prop
  | NULL => True
  | node _ left right stored =>
    npl right ≤ npl left ∧ stored = npl right + 1 ∧ Leftist left ∧ Leftist right

end UC.LeftHeap
