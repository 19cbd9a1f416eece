import UC.Lib.Memory
import UC.ShmModes.Model

/- The class hash_shm of example_shm_hashtable1.cpp, built by the constructor that takes the key
   of a segment. Row i has modTable[i] nodes and gives every key one of them; a node with key 0
   is empty. Sizes are unbounded integers, and the counter, which lies behind the last node, has
   a place of its own. The result none is a division by zero or the use of a NULL pointer. -/
namespace UC.ShmModes
open UC.Memory

structure HashNode (V : Type) where
  key : UInt64
  value : V

/-- The segment has this many bytes; the eight at mem + memSize are currentSize if it has them. -/
structure Segment (V : Type) where
  nodes : Mem (HashNode V)
  currentSize : UInt64
  bytes : Nat

structure HashShm (V : Type) (nodeSize maxLine lines : Nat) where
  mem : Segment V
  memSize : Nat
  modTable : List Nat
  maxSize : Nat
  /-- Number of the node that the pointer shows; none before the first find that succeeds. -/
  lastFound : Option Nat

namespace HashShm

variable {V : Type} {nodeSize maxLine lines : Nat}

def zeroed [Zero V] (bytes : Nat) : Segment V := ⟨fun _ => ⟨0, 0⟩, 0, bytes⟩

/-- *currentSize as a value. -/
def counter (t : HashShm V nodeSize maxLine lines) : Option UInt64 :=
  if t.memSize + 8 ≤ t.mem.bytes then some t.mem.currentSize else none

def setCounter (t : HashShm V nodeSize maxLine lines) (n : UInt64) :
    Option (HashShm V nodeSize maxLine lines) :=
  if t.memSize + 8 ≤ t.mem.bytes then some { t with mem := { t.mem with currentSize := n } }
  else none

/-- The constructor on a segment, with its test of the counter; an unsigned one is never below
    0. -/
def construct (shm : Segment V) : Option (HashShm V nodeSize maxLine lines) :=
  (getMode maxLine lines).bind fun modTable =>
    let maxSize := modTable.sum
    let t : HashShm V nodeSize maxLine lines := ⟨shm, nodeSize * maxSize, modTable, maxSize, none⟩
    t.counter.map fun _ => t

def hash (t : HashShm V nodeSize maxLine lines) (key : UInt64) (i : Nat) : Option Nat :=
  t.modTable[i]?.bind fun mode =>
    if mode = 0 then none else some ((key + maxLine.toUInt64).toNat % mode)

def getPos (t : HashShm V nodeSize maxLine lines) (row col : Nat) : Option Nat :=
  let pos := (t.modTable.take row).sum + col
  if pos ≥ t.maxSize then none else some pos

def position (t : HashShm V nodeSize maxLine lines) (key : UInt64) (i : Nat) : Option Nat :=
  (t.hash key i).bind (t.getPos i)

/-- The loop of find, over the rows still to visit. -/
def findRows (t : HashShm V nodeSize maxLine lines) (key : UInt64) :
    List Nat → Option (HashShm V nodeSize maxLine lines × Int)
  | [] => some (t, -1)
  | i :: rows => (t.position key i).bind fun pH =>
    if (t.mem.nodes pH).key = key then some ({ t with lastFound := some pH }, 0)
    else findRows t key rows

def find (t : HashShm V nodeSize maxLine lines) (key : UInt64) :
    Option (HashShm V nodeSize maxLine lines × Int) :=
  t.findRows key (List.range lines)

/-- The loop of insert, over the rows still to visit. -/
def insertRows (t : HashShm V nodeSize maxLine lines) (key : UInt64) (value : V) :
    List Nat → Option (HashShm V nodeSize maxLine lines × Int)
  | [] => some (t, -1)
  | i :: rows => (t.position key i).bind fun pH =>
    if (t.mem.nodes pH).key = 0 then
      let t := { t with mem := { t.mem with nodes := store t.mem.nodes pH ⟨key, value⟩ } }
      t.counter.bind fun n => (t.setCounter (n + 1)).map fun t => (t, 0)
    else insertRows t key value rows

def insert (t : HashShm V nodeSize maxLine lines) (key : UInt64) (value : V) :
    Option (HashShm V nodeSize maxLine lines × Int) :=
  (t.find key).bind fun (t, found) =>
    if found = 0 then some (t, 1) else t.insertRows key value (List.range lines)

def remove (t : HashShm V nodeSize maxLine lines) (key : UInt64) :
    Option (HashShm V nodeSize maxLine lines × Int) :=
  (t.find key).bind fun (t, found) =>
    if found = -1 then some (t, -1)
    else t.lastFound.bind fun pH =>
      let node := { t.mem.nodes pH with key := 0 }
      let t := { t with mem := { t.mem with nodes := store t.mem.nodes pH node } }
      t.counter.bind fun n => (t.setCounter (n - 1)).map fun t => (t, 0)

/-- memset over the nodes, then the counter. -/
def clear [Zero V] (t : HashShm V nodeSize maxLine lines) :
    Option (HashShm V nodeSize maxLine lines) :=
  let nodes := fun p => if p < t.maxSize then ⟨0, 0⟩ else t.mem.nodes p
  { t with mem := { t.mem with nodes := nodes } }.setCounter 0

/-- The calls of a process, and another process that builds its table on the segment. -/
inductive Op (V : Type) where
  | find (key : UInt64)
  | insert (key : UInt64) (value : V)
  | remove (key : UInt64)
  | clear
  | construct

def exec [Zero V] (t : HashShm V nodeSize maxLine lines) :
    Op V → Option (HashShm V nodeSize maxLine lines × Int)
  | .find key => t.find key
  | .insert key value => t.insert key value
  | .remove key => t.remove key
  | .clear => t.clear.map fun t => (t, 0)
  | .construct => (construct t.mem).map fun t => (t, 0)

/-- The table behind the calls, and each call with what it returned. -/
def execAll [Zero V] (t : HashShm V nodeSize maxLine lines) :
    List (Op V) → Option (HashShm V nodeSize maxLine lines × List (Op V × Int))
  | [] => some (t, [])
  | op :: ops => (t.exec op).bind fun (t, code) =>
    (execAll t ops).map fun (t, rest) => (t, (op, code) :: rest)

end HashShm

end UC.ShmModes
