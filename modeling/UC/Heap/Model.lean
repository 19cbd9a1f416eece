import Mathlib.Algebra.Group.Nat.Defs
import UC.Lib.HeapOrder

/- The array priority queue of example_heap.cpp. An index outside the max + 1 allocated
   slots and an int that overflows are none; messages are left out. -/
namespace UC.PriorityQueue
open UC.Memory UC.HeapOrder

def INT_MAX : Nat := 2 ^ 31 - 1

/-- The result of an int operation on non-negative operands. -/
def int (n : Nat) : Option Nat := if n ≤ INT_MAX then some n else none

structure Heap where
  capacity : Nat
  elements : Mem Int
  size : Nat

def load (capacity : Nat) (elements : Mem Int) (i : Nat) : Option Int :=
  if i < capacity + 1 then some (elements i) else none

def save (capacity : Nat) (elements : Mem Int) (i : Nat) (x : Int) : Option (Mem Int) :=
  if i < capacity + 1 then some (store elements i x) else none

def isEmpty (queue : Heap) : Bool := queue.size == 0

def isFull (queue : Heap) : Bool := queue.size == queue.capacity

/-- The new array keeps what the memory held. -/
def init (max : Nat) (memory : Mem Int) : Option Heap := do
  let _ ← int (max + 1)
  some { capacity := max, elements := memory, size := 0 }

/-- The loop of insert and the store behind it. At i = 0 the C value (i-1)/2 is 0. -/
def siftUp (capacity : Nat) (x : Int) (elements : Mem Int) (i : Nat) : Option (Mem Int) := do
  let above ← load capacity elements ((i - 1) / 2)
  if sift : x < above ∧ 0 < i then
    let elements ← save capacity elements i above
    siftUp capacity x elements ((i - 1) / 2)
  else save capacity elements i x
termination_by i

def insert (x : Int) (queue : Heap) : Option Heap :=
  if isFull queue then some queue
  else do
    let size ← int (queue.size + 1)
    let elements ← siftUp queue.capacity x queue.elements queue.size
    some { queue with size := size, elements := elements }

/-- child != queue->size && elements[child+1] < elements[child]. -/
def rightSmaller (queue : Heap) (elements : Mem Int) (child : Nat) : Option Bool :=
  if child = queue.size then some false
  else do
    let right ← load queue.capacity elements (child + 1)
    let left ← load queue.capacity elements child
    some (right < left)

/-- The loop of deleteMin and the store behind it. -/
def siftDown (queue : Heap) (lastElement : Int) (elements : Mem Int) (i : Nat) :
    Option (Mem Int) := do
  let twice ← int (i * 2)
  if sift : i * 2 < queue.size then
    let right ← rightSmaller queue elements (twice + 1)
    let child := if right then i * 2 + 2 else i * 2 + 1
    let below ← load queue.capacity elements child
    if lastElement > below then
      let elements ← save queue.capacity elements i below
      siftDown queue lastElement elements child
    else save queue.capacity elements i lastElement
  else save queue.capacity elements i lastElement
termination_by queue.size - i
decreasing_by
  split <;> omega

/-- The element returned and the queue after it. -/
def deleteMin (queue : Heap) : Option (Int × Heap) :=
  if isEmpty queue then some (0, queue)
  else do
    let minElement ← load queue.capacity queue.elements 0
    let queue := { queue with size := queue.size - 1 }
    let lastElement ← load queue.capacity queue.elements queue.size
    let elements ← siftDown queue lastElement queue.elements 0
    some (minElement, { queue with elements := elements })

inductive Op where
  | insert (x : Int)
  | deleteMin

def exec : Op → Heap → Option Heap
  | .insert x, queue => insert x queue
  | .deleteMin, queue => (deleteMin queue).map Prod.snd

def execAll : List Op → Heap → Option Heap
  | [], queue => some queue
  | op :: ops, queue => (exec op queue).bind (execAll ops)

def stored (queue : Heap) : Multiset Int := bag queue.elements queue.size

end UC.PriorityQueue
