import Mathlib.Order.Lattice
import UC.Lib.Loops
import UC.Lib.Memory

/- The B+ tree of example_bplus_tree.cpp, on a heap of nodes. Keys are any linear order.
   The result none is undefined behaviour: an array write outside its slots, a pointer
   that is NULL or to no live node, or a recursion that does not end. Slots keep what was
   last written to them, also beyond the number of keys, and begin as the allocator
   left them. -/
namespace UC.BPlusTree
open UC.Memory UC.Loops

inductive NodeType where
  | INTERNAL
  | LEAF
  deriving DecidableEq, Repr

inductive Direction where
  | LEFT
  | RIGHT

def ORDER : Nat := 7
def MINNUM_KEY : Nat := ORDER - 1
def MAXNUM_KEY : Nat := 2 * ORDER - 1
def MINNUM_CHILD : Nat := MINNUM_KEY + 1
def MAXNUM_CHILD : Nat := MAXNUM_KEY + 1
def MINNUM_LEAF : Nat := MINNUM_KEY
def MAXNUM_LEAF : Nat := MAXNUM_KEY
def INVALID_INDEX : Int := -1

abbrev Ptr := Nat

/-- CNode with the members of both its subclasses. -/
structure CNode (K : Type) where
  m_Type : NodeType
  m_KeyNum : Nat
  m_KeyValues : Mem K
  m_Childs : Mem (Option Ptr)
  m_LeftSibling : Option Ptr
  m_RightSibling : Option Ptr
  m_Datas : Mem Int

namespace CNode

variable {K : Type}

def setKeyValue (n : CNode K) (i : Nat) (key : K) : Option (CNode K) :=
  if i < MAXNUM_KEY then some { n with m_KeyValues := store n.m_KeyValues i key } else none

def setChild (n : CNode K) (i : Nat) (child : Option Ptr) : Option (CNode K) :=
  if i < MAXNUM_CHILD then some { n with m_Childs := store n.m_Childs i child } else none

def setData (n : CNode K) (i : Nat) (data : Int) : Option (CNode K) :=
  if i < MAXNUM_LEAF then some { n with m_Datas := store n.m_Datas i data } else none

/-- CInternalNode::insert. Behind the loop i is the smaller of keyIndex and the number
    of keys. -/
def insertChild (n : CNode K) (keyIndex childIndex : Nat) (key : K) (child : Option Ptr) :
    Option (CNode K) := do
  let m_KeyNum := n.m_KeyNum
  let n ← forLoop (fun j n => do
    let i := m_KeyNum - j
    let n ← n.setChild (i + 1) (n.m_Childs i)
    n.setKeyValue i (n.m_KeyValues (i - 1))) (m_KeyNum - keyIndex) n
  let i := min m_KeyNum keyIndex
  let n ← if i = childIndex then n.setChild (i + 1) (n.m_Childs i) else some n
  let n ← n.setChild childIndex child
  let n ← n.setKeyValue keyIndex key
  some { n with m_KeyNum := m_KeyNum + 1 }

/-- The loop of CLeafNode::insert, from i on; the result is the i it ends at. -/
def shiftLeaf [LinearOrder K] (key : K) : Nat → CNode K → Option (CNode K × Nat)
  | 0, n => some (n, 0)
  | i + 1, n =>
    if n.m_KeyValues i > key then do
      let n ← n.setKeyValue (i + 1) (n.m_KeyValues i)
      let n ← n.setData (i + 1) (n.m_Datas i)
      shiftLeaf key i n
    else some (n, i + 1)

def insertLeaf [LinearOrder K] (n : CNode K) (key : K) (data : Int) : Option (CNode K) := do
  let (n, i) ← shiftLeaf key n.m_KeyNum n
  let n ← n.setKeyValue i key
  let n ← n.setData i data
  some { n with m_KeyNum := n.m_KeyNum + 1 }

/-- The virtual removeKey; a node without keys has none to remove. -/
def removeKey (n : CNode K) (keyIndex childIndex : Nat) : Option (CNode K) :=
  if n.m_KeyNum = 0 then none
  else
    let count := n.m_KeyNum - keyIndex - 1
    match n.m_Type with
    | .INTERNAL => do
      let n ← forLoop (fun i n => do
        let n ← n.setKeyValue (keyIndex + i) (n.m_KeyValues (keyIndex + i + 1))
        n.setChild (childIndex + i) (n.m_Childs (childIndex + i + 1))) count n
      some { n with m_KeyNum := n.m_KeyNum - 1 }
    | .LEAF => do
      let n ← forLoop (fun i n => do
        let n ← n.setKeyValue (keyIndex + i) (n.m_KeyValues (keyIndex + i + 1))
        n.setData (keyIndex + i) (n.m_Datas (keyIndex + i + 1))) count n
      some { n with m_KeyNum := n.m_KeyNum - 1 }

/-- What the split of node n writes to the new internal node m. -/
def fillInternal (m n : CNode K) : Option (CNode K) := do
  let m := { m with m_KeyNum := MINNUM_KEY }
  let m ← forLoop (fun i m => m.setKeyValue i (n.m_KeyValues (i + MINNUM_CHILD))) MINNUM_KEY m
  forLoop (fun i m => m.setChild i (n.m_Childs (i + MINNUM_CHILD))) MINNUM_CHILD m

/-- What the split of leaf n at address this writes to the new leaf m. -/
def fillLeaf (m n : CNode K) (this : Ptr) : Option (CNode K) := do
  let m := { m with
    m_KeyNum := MINNUM_LEAF + 1
    m_RightSibling := n.m_RightSibling
    m_LeftSibling := some this }
  let m ← forLoop (fun i m => m.setKeyValue i (n.m_KeyValues (i + MINNUM_LEAF)))
    (MINNUM_LEAF + 1) m
  forLoop (fun i m => m.setData i (n.m_Datas (i + MINNUM_LEAF))) (MINNUM_LEAF + 1) m

variable [LinearOrder K]

/-- The loop of getKeyIndex; an interval of fuel + 1 slots is searched in fuel rounds. -/
def searchKey (keys : Mem K) (key : K) : Nat → Nat → Nat → Nat
  | 0, left, _ => left
  | fuel + 1, left, right =>
    if left = right then left
    else
      let current := (left + right) / 2
      if key > keys current then searchKey keys key fuel (current + 1) right
      else searchKey keys key fuel left current

/-- With no keys right starts at -1: the loop then ends in its first round or never. -/
def getKeyIndex (n : CNode K) (key : K) : Option Nat :=
  match n.m_KeyNum with
  | 0 => if key > n.m_KeyValues 0 then none else some 0
  | k + 1 => some (searchKey n.m_KeyValues key k 0 k)

/-- The virtual getChildIndex. -/
def getChildIndex (n : CNode K) (key : K) (keyIndex : Nat) : Nat :=
  match n.m_Type with
  | .INTERNAL => if key = n.m_KeyValues keyIndex then keyIndex + 1 else keyIndex
  | .LEAF => keyIndex

end CNode

/-- The live nodes, the next address the allocator hands out, and what it finds there. -/
structure Heap (K : Type) where
  cells : Ptr → Option (CNode K)
  next : Ptr
  raw : Ptr → CNode K

namespace Heap

variable {K : Type}

def write (h : Heap K) (p : Ptr) (n : CNode K) : Heap K :=
  { h with cells := fun x => if x = p then some n else h.cells x }

def modify (h : Heap K) (p : Ptr) (f : CNode K → Option (CNode K)) : Option (Heap K) := do
  let n ← h.cells p
  let n ← f n
  some (h.write p n)

/-- The constructors: type, no keys, no siblings, slots as they are. -/
def new (h : Heap K) (type : NodeType) : Heap K × Ptr :=
  let n := { h.raw h.next with
    m_Type := type, m_KeyNum := 0, m_LeftSibling := none, m_RightSibling := none }
  ({ h.write h.next n with next := h.next + 1 }, h.next)

/-- delete, which does nothing to NULL. -/
def delete (h : Heap K) : Option Ptr → Option (Heap K)
  | none => some h
  | some p =>
    (h.cells p).map fun _ => { h with cells := fun x => if x = p then none else h.cells x }

/-- More calls than any path over the live nodes of a tree takes. -/
def depthBound (h : Heap K) : Nat := h.next + 1

def splitInternal (h : Heap K) (this parent : Ptr) (childIndex : Nat) : Option (Heap K) := do
  let (h, newNode) := h.new .INTERNAL
  let n ← h.cells this
  let h ← h.modify newNode fun m => m.fillInternal n
  let h ← h.modify this fun n => some { n with m_KeyNum := MINNUM_KEY }
  h.modify parent fun m =>
    m.insertChild childIndex (childIndex + 1) (n.m_KeyValues MINNUM_KEY) (some newNode)

def splitLeaf (h : Heap K) (this parent : Ptr) (childIndex : Nat) : Option (Heap K) := do
  let (h, newNode) := h.new .LEAF
  let n ← h.cells this
  let h ← h.modify this fun n =>
    some { n with m_KeyNum := MINNUM_LEAF, m_RightSibling := some newNode }
  let h ← h.modify newNode fun m => m.fillLeaf n this
  h.modify parent fun m =>
    m.insertChild childIndex (childIndex + 1) (n.m_KeyValues MINNUM_LEAF) (some newNode)

def split (h : Heap K) (this parent : Ptr) (childIndex : Nat) : Option (Heap K) := do
  let n ← h.cells this
  match n.m_Type with
  | .INTERNAL => h.splitInternal this parent childIndex
  | .LEAF => h.splitLeaf this parent childIndex

def keyNum (h : Heap K) (p : Ptr) : Option Nat := (h.cells p).map CNode.m_KeyNum

/-- More rounds than a loop has that adds one key to a node in each. -/
def mergeBound : Nat := MAXNUM_KEY + 2

/-- CInternalNode::mergeChild. The node to delete is read from the parent after the
    parent's removeKey. -/
def mergeInternal (h : Heap K) (this parent child : Ptr) (keyIndex : Nat) : Option (Heap K) := do
  let m ← h.cells parent
  let c ← h.cells child
  let h ← h.modify this fun n =>
    n.insertChild MINNUM_KEY (MINNUM_KEY + 1) (m.m_KeyValues keyIndex) (c.m_Childs 0)
  let h ← forWhile (fun h => (h.keyNum child).map (· + 1)) (fun i h => do
    let c ← h.cells child
    h.modify this fun n =>
      n.insertChild (MINNUM_KEY + i) (MINNUM_KEY + i + 1) (c.m_KeyValues (i - 1)) (c.m_Childs i))
    mergeBound 1 h
  let h ← h.modify parent fun m => m.removeKey keyIndex (keyIndex + 1)
  let m ← h.cells parent
  h.delete (m.m_Childs (keyIndex + 1))

variable [LinearOrder K]

def mergeLeaf (h : Heap K) (this parent child : Ptr) (keyIndex : Nat) : Option (Heap K) := do
  let h ← forWhile (fun h => h.keyNum child) (fun i h => do
    let c ← h.cells child
    h.modify this fun n => n.insertLeaf (c.m_KeyValues i) (c.m_Datas i)) mergeBound 0 h
  let c ← h.cells child
  let h ← h.modify this fun n => some { n with m_RightSibling := c.m_RightSibling }
  h.modify parent fun m => m.removeKey keyIndex (keyIndex + 1)

def mergeChild (h : Heap K) (this parent child : Ptr) (keyIndex : Nat) : Option (Heap K) := do
  let n ← h.cells this
  match n.m_Type with
  | .INTERNAL => h.mergeInternal this parent child keyIndex
  | .LEAF => h.mergeLeaf this parent child keyIndex

def borrowInternal (h : Heap K) (this sibling parent : Ptr) (keyIndex : Nat) :
    Direction → Option (Heap K)
  | .LEFT => do
    let m ← h.cells parent
    let s ← h.cells sibling
    let h ← h.modify this fun n =>
      n.insertChild 0 0 (m.m_KeyValues keyIndex) (s.m_Childs s.m_KeyNum)
    let s ← h.cells sibling
    let h ← h.modify parent fun m => m.setKeyValue keyIndex (s.m_KeyValues (s.m_KeyNum - 1))
    h.modify sibling fun s => s.removeKey (s.m_KeyNum - 1) s.m_KeyNum
  | .RIGHT => do
    let m ← h.cells parent
    let s ← h.cells sibling
    let h ← h.modify this fun n =>
      n.insertChild n.m_KeyNum (n.m_KeyNum + 1) (m.m_KeyValues keyIndex) (s.m_Childs 0)
    let s ← h.cells sibling
    let h ← h.modify parent fun m => m.setKeyValue keyIndex (s.m_KeyValues 0)
    h.modify sibling fun s => s.removeKey 0 0

def borrowLeaf (h : Heap K) (this sibling parent : Ptr) (keyIndex : Nat) :
    Direction → Option (Heap K)
  | .LEFT => do
    let s ← h.cells sibling
    let h ← h.modify this fun n =>
      n.insertLeaf (s.m_KeyValues (s.m_KeyNum - 1)) (s.m_Datas (s.m_KeyNum - 1))
    let h ← h.modify sibling fun s => s.removeKey (s.m_KeyNum - 1) (s.m_KeyNum - 1)
    let n ← h.cells this
    h.modify parent fun m => m.setKeyValue keyIndex (n.m_KeyValues 0)
  | .RIGHT => do
    let s ← h.cells sibling
    let h ← h.modify this fun n => n.insertLeaf (s.m_KeyValues 0) (s.m_Datas 0)
    let h ← h.modify sibling fun s => s.removeKey 0 0
    let s ← h.cells sibling
    h.modify parent fun m => m.setKeyValue keyIndex (s.m_KeyValues 0)

def borrowFrom (h : Heap K) (this sibling parent : Ptr) (keyIndex : Nat) (d : Direction) :
    Option (Heap K) := do
  let n ← h.cells this
  match n.m_Type with
  | .INTERNAL => h.borrowInternal this sibling parent keyIndex d
  | .LEAF => h.borrowLeaf this sibling parent keyIndex d

/-- The virtual clear: a leaf has nothing to clear. -/
def clear : Nat → Heap K → Ptr → Option (Heap K)
  | 0, _, _ => none
  | fuel + 1, h, p => do
    let n ← h.cells p
    match n.m_Type with
    | .LEAF => some h
    | .INTERNAL =>
      forLoop (fun i h => do
        let n ← h.cells p
        let child ← n.m_Childs i
        let h ← clear fuel h child
        let h ← h.delete (some child)
        h.modify p fun n => n.setChild i none) (n.m_KeyNum + 1) h

def recursiveInsert (key : K) (data : Int) : Nat → Heap K → Ptr → Option (Heap K)
  | 0, _, _ => none
  | fuel + 1, h, parent => do
    let n ← h.cells parent
    match n.m_Type with
    | .LEAF => h.modify parent fun n => n.insertLeaf key data
    | .INTERNAL =>
      let keyIndex ← n.getKeyIndex key
      let childIndex := n.getChildIndex key keyIndex
      let child ← n.m_Childs childIndex
      let c ← h.cells child
      if c.m_KeyNum ≥ MAXNUM_LEAF then
        let h ← h.split child parent childIndex
        let n ← h.cells parent
        if n.m_KeyValues childIndex ≤ key then
          let child ← n.m_Childs (childIndex + 1)
          recursiveInsert key data fuel h child
        else recursiveInsert key data fuel h child
      else recursiveInsert key data fuel h child

/-- The search of a key, recursive_search. -/
def recursiveSearch (h : Heap K) (key : K) : Nat → Ptr → Option Bool
  | 0, _ => none
  | fuel + 1, p => do
    let n ← h.cells p
    let keyIndex ← n.getKeyIndex key
    let childIndex := n.getChildIndex key keyIndex
    if keyIndex < n.m_KeyNum ∧ key = n.m_KeyValues keyIndex then some true
    else
      match n.m_Type with
      | .LEAF => some false
      | .INTERNAL =>
        match n.m_Childs childIndex with
        | none => some false
        | some child => recursiveSearch h key fuel child

def changeKey (oldKey newKey : K) : Nat → Heap K → Option Ptr → Option (Heap K)
  | 0, _, _ => none
  | _ + 1, h, none => some h
  | fuel + 1, h, some p => do
    let n ← h.cells p
    match n.m_Type with
    | .LEAF => some h
    | .INTERNAL =>
      let keyIndex ← n.getKeyIndex oldKey
      if keyIndex < n.m_KeyNum ∧ oldKey = n.m_KeyValues keyIndex then
        h.modify p fun n => n.setKeyValue keyIndex newKey
      else changeKey oldKey newKey fuel h (n.m_Childs keyIndex)

/-- The loop of printData: the leaves it comes by, each with the data it prints. -/
def printLeaves (h : Heap K) : Nat → Option Ptr → Option (List (Ptr × List Int))
  | 0, _ => none
  | _ + 1, none => some []
  | fuel + 1, some itr => do
    let n ← h.cells itr
    let rest ← printLeaves h fuel n.m_RightSibling
    some ((itr, slice n.m_Datas 0 n.m_KeyNum) :: rest)

/-- p && p->getKeyNum() > MINNUM_KEY -/
def canLend (h : Heap K) : Option Ptr → Option Bool
  | none => some false
  | some p => (h.cells p).map fun n => MINNUM_KEY < n.m_KeyNum

/-- The branch of recursive_remove for a child with MINNUM_KEY keys: borrow, else merge.
    The result also has the node the descent goes on with. -/
def rebalance (h : Heap K) (parent child : Ptr) (childIndex : Nat) : Option (Heap K × Ptr) := do
  let m ← h.cells parent
  let pLeft := if childIndex > 0 then m.m_Childs (childIndex - 1) else none
  let pRight := if childIndex < m.m_KeyNum then m.m_Childs (childIndex + 1) else none
  let fromLeft ← h.canLend pLeft
  if fromLeft then
    let left ← pLeft
    let h ← h.borrowFrom child left parent (childIndex - 1) .LEFT
    some (h, child)
  else
    let fromRight ← h.canLend pRight
    if fromRight then
      let right ← pRight
      let h ← h.borrowFrom child right parent childIndex .RIGHT
      some (h, child)
    else
      match pLeft, pRight with
      | some left, _ =>
        let h ← h.mergeChild left parent child (childIndex - 1)
        some (h, left)
      | none, some right =>
        let h ← h.mergeChild child parent right childIndex
        some (h, child)
      | none, none => some (h, child)

end Heap

/-- The tree object; the key of m_MaxKey means nothing before the first insert. -/
structure CBPlusTree (K : Type) where
  heap : Heap K
  m_Root : Option Ptr
  m_DataHead : Option Ptr
  m_MaxKey : K

namespace CBPlusTree

variable {K : Type}

/-- The constructor, with memory and m_MaxKey as they are found. -/
def empty (raw : Ptr → CNode K) (m_MaxKey : K) : CBPlusTree K :=
  ⟨⟨fun _ => none, 0, raw⟩, none, none, m_MaxKey⟩

variable [LinearOrder K]

def search (t : CBPlusTree K) (key : K) : Option Bool :=
  match t.m_Root with
  | none => some false
  | some root => t.heap.recursiveSearch key t.heap.depthBound root

def printData (t : CBPlusTree K) : Option (List (Ptr × List Int)) :=
  t.heap.printLeaves t.heap.depthBound t.m_DataHead

def clear (t : CBPlusTree K) : Option (CBPlusTree K) :=
  match t.m_Root with
  | none => some t
  | some root => do
    let h ← Heap.clear t.heap.depthBound t.heap root
    let h ← h.delete (some root)
    some { t with heap := h, m_Root := none, m_DataHead := none }

/-- The first leaf of an empty tree. -/
def firstLeaf (t : CBPlusTree K) (key : K) : CBPlusTree K :=
  match t.m_Root with
  | some _ => t
  | none =>
    let (h, root) := t.heap.new .LEAF
    ⟨h, some root, some root, key⟩

/-- A full root is split under a new root. -/
def growRoot (t : CBPlusTree K) : Option (CBPlusTree K) := do
  let root ← t.m_Root
  let r ← t.heap.cells root
  if r.m_KeyNum ≥ MAXNUM_KEY then
    let (h, newNode) := t.heap.new .INTERNAL
    let h ← h.modify newNode fun n => n.setChild 0 (some root)
    let h ← h.split root newNode 0
    some { t with heap := h, m_Root := some newNode }
  else some t

def insert (t : CBPlusTree K) (key : K) (data : Int) : Option (CBPlusTree K × Bool) := do
  let found ← t.search key
  if found then some (t, false)
  else
    let t ← (t.firstLeaf key).growRoot
    let t := if key > t.m_MaxKey then { t with m_MaxKey := key } else t
    let root ← t.m_Root
    let h ← t.heap.recursiveInsert key data t.heap.depthBound root
    some ({ t with heap := h }, true)

/-- Both recursive_remove, which differ in whether they pass the data out. -/
def recursiveRemove (key : K) : Nat → CBPlusTree K → Ptr → Option (CBPlusTree K × Int)
  | 0, _, _ => none
  | fuel + 1, t, parent => do
    let n ← t.heap.cells parent
    let keyIndex ← n.getKeyIndex key
    let childIndex := n.getChildIndex key keyIndex
    match n.m_Type with
    | .LEAF =>
      let m_MaxKey :=
        if key = t.m_MaxKey ∧ keyIndex > 0 then n.m_KeyValues (keyIndex - 1) else t.m_MaxKey
      let h ← t.heap.modify parent fun n => n.removeKey keyIndex childIndex
      let root ← t.m_Root
      let r ← h.cells root
      let n' ← h.cells parent
      let h ←
        if childIndex = 0 ∧ r.m_Type ≠ .LEAF ∧ some parent ≠ t.m_DataHead then
          Heap.changeKey key (n'.m_KeyValues 0) h.depthBound h (some root)
        else some h
      some ({ t with heap := h, m_MaxKey := m_MaxKey }, n.m_Datas keyIndex)
    | .INTERNAL =>
      let child ← n.m_Childs childIndex
      let c ← t.heap.cells child
      if c.m_KeyNum = MINNUM_KEY then
        let (h, child) ← t.heap.rebalance parent child childIndex
        recursiveRemove key fuel { t with heap := h } child
      else recursiveRemove key fuel t child

/-- The special case of remove for an internal root with one key: two children with
    MINNUM_KEY keys each are merged into the new root. -/
def shrinkRoot (t : CBPlusTree K) (root : Ptr) : Option (CBPlusTree K) := do
  let r ← t.heap.cells root
  let pChild1 ← r.m_Childs 0
  let pChild2 ← r.m_Childs 1
  let c1 ← t.heap.cells pChild1
  let c2 ← t.heap.cells pChild2
  if c1.m_KeyNum = MINNUM_KEY ∧ c2.m_KeyNum = MINNUM_KEY then
    let h ← t.heap.mergeChild pChild1 root pChild2 0
    let h ← h.delete (some root)
    some { t with heap := h, m_Root := some pChild1 }
  else some t

/-- remove with the data of the removed key, INVALID_INDEX when the key is not found. The
    boolean is what the other remove returns. -/
def removeData (t : CBPlusTree K) (key : K) : Option (CBPlusTree K × Bool × Int) := do
  let found ← t.search key
  if ¬ found then some (t, false, INVALID_INDEX)
  else
    let root ← t.m_Root
    let r ← t.heap.cells root
    if r.m_KeyNum = 1 ∧ r.m_Type = .LEAF then
      let t ← t.clear
      some (t, true, r.m_Datas 0)
    else
      let t ← if r.m_KeyNum = 1 then t.shrinkRoot root else some t
      let root ← t.m_Root
      let (t, data) ← recursiveRemove key t.heap.depthBound t root
      some (t, true, data)

def remove (t : CBPlusTree K) (key : K) : Option (CBPlusTree K × Bool) :=
  (t.removeData key).map fun (t, removed, _) => (t, removed)

def update (t : CBPlusTree K) (oldKey newKey : K) : Option (CBPlusTree K × Bool) := do
  let found ← t.search newKey
  if found then some (t, false)
  else
    let (t, _, dataValue) ← t.removeData oldKey
    if dataValue = INVALID_INDEX then some (t, false) else t.insert newKey dataValue

end CBPlusTree

end UC.BPlusTree
